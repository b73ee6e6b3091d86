import Lexicon.Proofs.Segment.Bounds
import Lexicon.Proofs.Segment.Ends

/-!
# Opening a segment

What the sinks hold once a segment was ended is what a reader accepts: the footers and headers, the
directory, the table of where the indexes start, and each index.

> **`Reader.loadField_spec`** — the reader of a stored field has its index and its runs;
> **`Reader.open_spec`** — and a segment that was ended is opened, with a reader for each;
> **`Reader.open_refused`** — unless more documents were noted of a field than its terms have.
-/

namespace Lexicon

/-- The reader has been given the stored field. -/
structure FieldReader.Reads (sizes : BlockSizes) (s : StoredField) (f : FieldReader) : Prop where
  info : f.info = s.info
  summary : f.summary = s.summary
  index : f.index = s.tree.map (·.1)
  empty : s.tree = none → s.terms = []
  shows : ∀ t runs, s.tree = some (t, runs) → f.Shows sizes s.terms runs

/-- What makes a stored field one that can be read. -/
structure StoredField.Readable (sizes : BlockSizes) (infos : List FieldInfo) (s : StoredField) :
    Prop where
  known : infos.find? (·.number = s.info.number) = some s.info
  accepted : FieldWriter.Accepted s.hasFreqs s.terms
  small : s.terms.Small sizes
  sums : s.terms.Summable

/-- A frame is a footer behind the bytes. -/
theorem Frame.framed_eq (bs : Bytes) : ∃ footer, framed bs = bs ++ footer :=
  ⟨mark ++ (Item.u64 (checksum (bs ++ mark))).encode, List.append_assoc ..⟩

/-- The bytes are in front of their frame. -/
theorem Frame.take_framed (bs : Bytes) : (framed bs).take bs.length = bs := by
  obtain ⟨footer, hframed⟩ := framed_eq bs
  rw [hframed, List.take_left]

namespace Reader

variable {sizes : BlockSizes} {fields : List StoredField} {stream index : Bytes}
  {infos : List FieldInfo}

/-! ## The index of a field -/

theorem length_nodes_le (t : Transducer) : t.nodes.length ≤ t.save.length := by
  have hnodes : (Item.encodeAll [.nat64 t.nodes.length, .bytes t.nodes]).length
      = (Item.nat64 t.nodes.length).encode.length + t.nodes.length := by
    rw [Item.encodeAll_cons, Item.encodeAll_singleton, List.length_append]
    rfl
  rw [Transducer.save, Transducer.saveItems, Item.encodeAll_append, List.length_append, hnodes]
  omega

/-- The index of a stored field is read back. -/
theorem load_spec {s : StoredField} {t : Transducer} {runs : List Run}
    (h : s.In sizes stream index) (htree : s.tree = some (t, runs))
    (hstream : stream.length ≤ 2 ^ 62) (hindex : index.length < 2 ^ 64) :
    Transducer.load.runAt index s.indexStart = .ok t := by
  obtain ⟨hrooted, hoffsets⟩ := h.rooted t runs htree
  obtain ⟨before, after, rfl, hbefore⟩ := h.placed
  have hbytes : s.indexBytes = t.save := by
    rw [StoredField.indexBytes, htree]
  rw [hbytes, List.length_append, List.length_append] at hindex
  have hnodes := length_nodes_le t
  have hruns := hrooted.length_le_blockCount
  have hcount := hrooted.blockCount_le hoffsets fun r hin => hin.before
  obtain ⟨r, -, hsound, houtput⟩ := hrooted.emptyOutput_eq
  obtain ⟨top, below, -, -, -, -, -, hdenotes⟩ := hrooted
  have hload : Read.Takes Transducer.load t.save t := by
    refine Transducer.takes_load (hdenotes.loadable ?_ (by omega) fun output h => ?_)
    · rw [List.length_map]
      omega
    · rw [houtput, Option.some.injEq] at h
      rw [← h]
      exact Nat.lt_of_le_of_lt (length_encode_location hsound.sliced) (by decide)
  rw [hbytes, ← hbefore]
  exact hload.runAt before after

/-- **A stored field is loaded**, whatever comes after its runs. -/
theorem loadField_spec {s : StoredField} (hsizes : sizes.Valid) (h : s.In sizes stream index)
    (hknown : infos.find? (·.number = s.info.number) = some s.info)
    (haccepted : FieldWriter.Accepted s.hasFreqs s.terms) (hsmall : s.terms.Small sizes)
    (more : Bytes) (hstream : (stream ++ more).length ≤ 2 ^ 62) (hindex : index.length < 2 ^ 64) :
    ∃ f, loadField (stream ++ more) index infos s.summary = .ok f ∧ f.Reads sizes s := by
  have hshort : stream.length ≤ 2 ^ 62 := by
    rw [List.length_append] at hstream
    omega
  rw [loadField]
  simp only [s.summary_number, hknown]
  -- only the index of a field with terms is read
  cases htree : s.tree with
  | none =>
    have hterms : s.summary.hasTerms = false := by
      rw [StoredField.summary, htree]
      rfl
    rw [hterms]
    refine ⟨⟨s.info, s.summary, none, stream ++ more⟩, rfl, rfl, rfl, ?_, h.empty, ?_⟩
    · rw [htree]
      rfl
    · simp [htree]
  | some tree =>
    obtain ⟨t, runs⟩ := tree
    have hterms : s.summary.hasTerms = true := by
      have hpos := List.length_pos_iff.mpr (h.terms_ne_nil hsizes.two_le htree)
      rw [StoredField.summary, htree, FieldSummary.hasTerms, decide_eq_true_eq,
        UInt64.lt_iff_toNat_lt, UInt64.toNat_ofNat_of_lt' h.count]
      exact hpos
    have hstart : s.summary.indexStart.toNat = s.indexStart := by
      obtain ⟨before, after, rfl, hbefore⟩ := h.placed
      rw [List.length_append] at hindex
      rw [s.summary_indexStart]
      exact UInt64.toNat_ofNat_of_lt' (show _ < 2 ^ 64 by omega)
    have hroot := StoredField.emptyOutput_eq htree (h.rooted t runs htree).1
    refine ⟨⟨s.info, s.summary, some t, stream ++ more⟩, ?_, rfl, rfl, ?_, h.empty, ?_⟩
    · rw [if_pos hterms, hstart, load_spec h htree hshort hindex]
      show (if t.emptyOutput ≠ some s.summary.rootCode then _ else _) = _
      rw [if_neg (by simp [hroot])]
      rfl
    · rw [htree]
      rfl
    · rintro t' runs' heq
      obtain ⟨rfl, rfl⟩ : t = t' ∧ runs = runs' := by simpa [htree] using heq
      exact h.shows hsizes.two_le htree hsmall haccepted more hstream s.summary

/-! ## The table of where the indexes start -/

/-- What holds of each field is checked field by field. -/
theorem forM_zip_map {α : Type} {f : FieldSummary × α → Except Error Unit}
    {g : StoredField → FieldSummary} {k : StoredField → α} (l : List StoredField)
    (h : ∀ s ∈ l, f (g s, k s) = .ok ()) : ((l.map g).zip (l.map k)).forM f = .ok () := by
  induction l with
  | nil => rfl
  | cons s l ih =>
    obtain ⟨hfirst, hrest⟩ := List.forall_mem_cons.mp h
    show (f (g s, k s) >>= fun _ => List.forM ((l.map g).zip (l.map k)) f) = _
    rw [hfirst]
    exact ih hrest

/-- **The table says where the indexes start.** -/
theorem checkStarts_spec (hstarts : fields.Pairwise (·.indexStart ≤ ·.indexStart))
    (hbefore : ∀ s ∈ fields, s.indexStart ≤ index.length) (hindex : index.length < 2 ^ 63) :
    checkStarts (indexBody fields index) (fields.map StoredField.summary) = .ok () := by
  have hword : (Item.u64 (UInt64.ofNat index.length)).encode.length = 8 :=
    Bytes.length_littleEndian ..
  -- the last eight bytes of the body say where the table starts
  have hlast : (Read.word 8).runAt (indexBody fields index) ((indexBody fields index).length - 8)
      = .ok index.length := by
    have htakes : Read.Takes (Read.word 8) (Item.u64 (UInt64.ofNat index.length)).encode
        index.length := by
      have hvalue : (UInt64.ofNat index.length).toNat = index.length :=
        UInt64.toNat_ofNat_of_lt' (show _ < 2 ^ 64 by omega)
      have htaken : Read.Takes (Read.word 8) (Item.u64 (UInt64.ofNat index.length)).encode
          (UInt64.ofNat index.length).toNat :=
        Read.takes_word (Nat.lt_of_lt_of_le (UInt64.ofNat index.length).toNat_lt (by decide))
      rwa [hvalue] at htaken
    have hat := htakes.runAt (index ++ startsBytes fields) []
    rw [List.append_nil, List.append_assoc] at hat
    rw [indexBody, List.length_append, List.length_append, hword, ← Nat.add_assoc,
      Nat.add_sub_cancel, ← List.length_append]
    exact hat
  have hsorted : (fields.map (·.indexStart)).Pairwise (· ≤ ·) := List.pairwise_map.mpr hstarts
  have hrow :
      Read.Takes (Monotonic.read (fields.map StoredField.summary).length Streams.startsShift)
      (startsBytes fields) (fields.map (·.indexStart)) := by
    have hshift : Monotonic.validShift Streams.startsShift = true := by decide
    have hread := Monotonic.takes_read hshift hsorted fun v hv => by
      obtain ⟨s, hs, rfl⟩ := List.mem_map.mp hv
      have := hbefore s hs
      omega
    rw [List.length_map] at hread ⊢
    exact hread
  have htable := hrow.runAt index (Item.u64 (UInt64.ofNat index.length)).encode
  rw [← indexBody] at htable
  rw [checkStarts, hlast]
  show (Read.runAt _ _ index.length >>= _) = _
  rw [htable]
  refine forM_zip_map fields fun s hs => ?_
  have hstart := hbefore s hs
  have hsame : s.summary.indexStart.toNat = s.indexStart := by
    rw [s.summary_indexStart]
    exact UInt64.toNat_ofNat_of_lt' (show _ < 2 ^ 64 by omega)
  exact if_neg (by simpa using hsame)

/-! ## The streams -/

variable {segment : Segment} {moreTerms moreIndex : Bytes}

/-- The header of a segment is accepted for the segment. -/
theorem takes_header (codec : String) (hcodec : (Bytes.ofString codec).length < 2 ^ 32)
    (hsuffix : (Bytes.ofString segment.suffix).length < 2 ^ 32) :
    Read.Takes (Frame.readHeader (Streams.expectation segment codec)) (headerBytes segment codec)
      Frame.version.toNat :=
  Frame.takes_readHeader ⟨Nat.le_refl _, Nat.le_refl _⟩ hcodec segment.id.length_eq hsuffix

/-- The header is accepted in its frame too. -/
theorem readHeader_framed (codec : String) (more : Bytes)
    (hcodec : (Bytes.ofString codec).length < 2 ^ 32)
    (hsuffix : (Bytes.ofString segment.suffix).length < 2 ^ 32) :
    ∃ c, (Frame.readHeader (Streams.expectation segment codec)).run
      (Frame.framed (headerBytes segment codec ++ more)) = .ok (Frame.version.toNat, c) := by
  obtain ⟨footer, hframed⟩ := Frame.framed_eq (headerBytes segment codec ++ more)
  rw [hframed, List.append_assoc]
  exact ⟨_, (takes_header codec hcodec hsuffix).run (more ++ footer)⟩

/-- The summaries are in the order of the numbers. -/
theorem summaries_increasing (h : fields.Pairwise (·.info.number < ·.info.number)) :
    (fields.map StoredField.summary).Pairwise (·.number < ·.number) := by
  rw [List.pairwise_map]
  refine h.imp fun {a b} hlt => ?_
  rwa [a.summary_number, b.summary_number]

/-- The directory is read behind its header. -/
theorem takes_directory {body : Bytes} (hcount : fields.length < 2 ^ 32)
    (hle : fields.length ≤ infos.length) (hlisted : ∀ s ∈ fields, s.summary.Listed infos)
    (hnumbers : fields.Pairwise (·.info.number < ·.info.number)) :
    Read.Takes (Directory.read infos) (Item.encodeAll (directoryOf fields stream body).items)
      (directoryOf fields stream body) := by
  refine Directory.takes_read ?_ ?_ (fun s hs => ?_) (summaries_increasing hnumbers)
  · rwa [directoryOf, List.length_map]
  · rwa [directoryOf, List.length_map]
  · obtain ⟨x, hx, rfl⟩ := List.mem_map.mp hs
    exact hlisted x hx

/-- **The streams of a segment that was ended are accepted.** -/
theorem checkStreams_spec (hsuffix : (Bytes.ofString segment.suffix).length < 2 ^ 32)
    (hstream : stream = headerBytes segment Streams.codecs.terms ++ moreTerms)
    (hindex : index = headerBytes segment Streams.codecs.index ++ moreIndex)
    (hcount : fields.length < 2 ^ 32) (hle : fields.length ≤ infos.length)
    (hlisted : ∀ s ∈ fields, s.summary.Listed infos)
    (hnumbers : fields.Pairwise (·.info.number < ·.info.number))
    (hterms : (Frame.framed stream).length < 2 ^ 64)
    (hbody : (Frame.framed (indexBody fields index)).length < 2 ^ 64) :
    checkStreams ⟨Frame.framed stream, Frame.framed (indexBody fields index),
        Frame.framed (headerBytes segment Streams.codecs.directory
          ++ Item.encodeAll (directoryOf fields stream (indexBody fields index)).items)⟩
        segment infos
      = .ok (directoryOf fields stream (indexBody fields index), indexBody fields index) := by
  have hcodecs : (Bytes.ofString Streams.codecs.terms).length < 2 ^ 32 ∧
      (Bytes.ofString Streams.codecs.index).length < 2 ^ 32 ∧
      (Bytes.ofString Streams.codecs.directory).length < 2 ^ 32 := by decide +kernel
  -- the directory, which tells where the other two streams end
  have hboth : Read.Takes
      (Frame.readHeader (Streams.expectation segment Streams.codecs.directory)
        >>= fun _ => Directory.read infos)
      (headerBytes segment Streams.codecs.directory
        ++ Item.encodeAll (directoryOf fields stream (indexBody fields index)).items)
      (directoryOf fields stream (indexBody fields index)) :=
    (takes_header Streams.codecs.directory hcodecs.2.2 hsuffix).bind
      (takes_directory hcount hle hlisted hnumbers)
  have hread := hboth.run []
  rw [List.append_nil] at hread
  -- the headers of these two
  obtain ⟨c, hheadTerms⟩ := readHeader_framed Streams.codecs.terms moreTerms hcodecs.1 hsuffix
  obtain ⟨c', hheadIndex⟩ := readHeader_framed Streams.codecs.index
    (moreIndex ++ (startsBytes fields ++ (Item.u64 (UInt64.ofNat index.length)).encode)) hcodecs.2.1
    hsuffix
  rw [← hstream] at hheadTerms
  rw [← List.append_assoc, ← hindex, ← indexBody] at hheadIndex
  have hindexEnd : (directoryOf fields stream (indexBody fields index)).indexEnd.toNat
      = (Frame.framed (indexBody fields index)).length := UInt64.toNat_ofNat_of_lt' hbody
  have htermsEnd : (directoryOf fields stream (indexBody fields index)).termsEnd.toNat
      = (Frame.framed stream).length := UInt64.toNat_ofNat_of_lt' hterms
  generalize directoryOf fields stream (indexBody fields index) = d at hread hindexEnd htermsEnd ⊢
  rw [checkStreams]
  simp only [Frame.checkFooter_framed, ok_bind, Frame.take_framed]
  rw [hread]
  show (if d.indexEnd.toNat ≠ (Frame.framed (indexBody fields index)).length then _ else _) = _
  rw [if_neg (by simpa using hindexEnd)]
  show (if d.termsEnd.toNat ≠ (Frame.framed stream).length then _ else _) = _
  rw [if_neg (by simpa using htermsEnd)]
  show (Read.run _ (Frame.framed stream) >>= _) = _
  rw [hheadTerms]
  show (Read.run _ (Frame.framed (indexBody fields index)) >>= _) = _
  rw [hheadIndex]
  rfl

/-- **A segment that was ended is opened**, with a reader for each of its fields. -/
theorem open_spec {w : Writer Memory} (hsizes : sizes.Valid)
    (hsuffix : (Bytes.ofString segment.suffix).length < 2 ^ 32)
    (hhas : w.Has sizes infos fields stream index (headerBytes segment Streams.codecs.directory))
    (hstream : stream = headerBytes segment Streams.codecs.terms ++ moreTerms)
    (hindex : index = headerBytes segment Streams.codecs.index ++ moreIndex)
    (hreadable : ∀ s ∈ fields, s.Readable sizes infos)
    (hdocs : ∀ s ∈ fields, ¬ s.terms.Exceeded s.docs) (hcount : fields.length < 2 ^ 32)
    (hle : fields.length ≤ infos.length)
    (hnumbers : fields.Pairwise (·.info.number < ·.info.number))
    (hlong : (Frame.framed stream).length ≤ 2 ^ 62) (hshort : index.length < 2 ^ 63) :
    ∃ readers, Reader.open ⟨Frame.framed stream, Frame.framed (indexBody fields index),
        Frame.framed (headerBytes segment Streams.codecs.directory
          ++ Item.encodeAll (directoryOf fields stream (indexBody fields index)).items)⟩
          segment infos
        = .ok ⟨segment, readers⟩ ∧ List.Forall₂ (FieldReader.Reads sizes) fields readers := by
  have hlisted : ∀ s ∈ fields, s.summary.Listed infos := fun s hs =>
    (hhas.inside s hs).listed hsizes (hreadable s hs).small (hreadable s hs).sums (hdocs s hs)
      (hreadable s hs).known
  -- The table is short, so the body with its footer is still below `2 ^ 64` bytes.
  have hstarts : (startsBytes fields).length ≤ 23 * fields.length := by
    have hrow := Monotonic.length_encodeRow_le (2 ^ Streams.startsShift - 1)
      (fields.map (·.indexStart))
    rwa [List.length_map] at hrow
  have hbody : (Frame.framed (indexBody fields index)).length < 2 ^ 64 := by
    have hword : (Item.u64 (UInt64.ofNat index.length)).encode.length = 8 :=
      Bytes.length_littleEndian ..
    rw [Frame.length_framed, indexBody, List.length_append, List.length_append, hword]
    omega
  have hstreams := checkStreams_spec hsuffix hstream hindex hcount hle hlisted hnumbers (by omega)
    hbody
  have htable := checkStarts_spec hhas.starts hhas.before hshort
  have hload : ∀ s ∈ fields, ∃ f, loadField (Frame.framed stream) (indexBody fields index) infos
      s.summary = .ok f ∧ f.Reads sizes s := fun s hs => by
    have hin := (hhas.inside s hs).mono []
      (startsBytes fields ++ (Item.u64 (UInt64.ofNat index.length)).encode)
    rw [List.append_nil, ← indexBody] at hin
    obtain ⟨footer, hframed⟩ := Frame.framed_eq stream
    rw [hframed] at hlong ⊢
    refine loadField_spec hsizes hin (hreadable s hs).known (hreadable s hs).accepted
      (hreadable s hs).small footer hlong ?_
    rw [Frame.length_framed] at hbody
    omega
  obtain ⟨readers, hreaders⟩ := exists_forall₂ hload
  have hfields : (fields.map StoredField.summary).mapM
      (loadField (Frame.framed stream) (indexBody fields index) infos) = .ok readers :=
    mapM_ok (List.forall₂_map_left_iff.mpr (hreaders.imp fun _ _ h => h.1))
  refine ⟨readers, ?_, hreaders.imp fun _ _ h => h.2⟩
  rw [Reader.open, hstreams]
  show (checkStarts (indexBody fields index) (fields.map StoredField.summary) >>= _) = _
  rw [htable]
  show ((fields.map StoredField.summary).mapM
    (loadField (Frame.framed stream) (indexBody fields index) infos) >>= _) = _
  rw [hfields]
  rfl

/-- **A segment is refused** for the first of its fields of which more documents were noted than its
terms have. -/
theorem open_refused {w : Writer Memory} {directory : Bytes} {front rest : List StoredField}
    {s : StoredField} (hsizes : sizes.Valid)
    (hsuffix : (Bytes.ofString segment.suffix).length < 2 ^ 32)
    (hhas : w.Has sizes infos fields stream index directory)
    (hreadable : ∀ x ∈ fields, x.Readable sizes infos) (hcount : fields.length < 2 ^ 32)
    (hle : fields.length ≤ infos.length)
    (hnumbers : fields.Pairwise (·.info.number < ·.info.number))
    (hfields : fields = front ++ s :: rest) (hfront : ∀ x ∈ front, ¬ x.terms.Exceeded x.docs)
    (hdocs : s.terms.Exceeded s.docs) :
    Reader.open ⟨Frame.framed stream, Frame.framed (indexBody fields index),
        Frame.framed (headerBytes segment Streams.codecs.directory
          ++ Item.encodeAll (directoryOf fields stream (indexBody fields index)).items)⟩
          segment infos
        = .error (.corrupt (.docFreqBelowDocCount s.info.name s.terms.docFreqs
          (UInt32.ofNat s.docs.distinct).toNat)) := by
  have hcodec : (Bytes.ofString Streams.codecs.directory).length < 2 ^ 32 := by decide +kernel
  have hs : s ∈ fields := by simp [hfields]
  have hcheck := (hhas.inside s hs).check_eq hsizes.two_le (hreadable s hs).sums s.info.name
  rw [if_pos hdocs] at hcheck
  have hsummaries : fields.map StoredField.summary
      = front.map StoredField.summary ++ s.summary :: rest.map StoredField.summary := by
    rw [hfields, List.map_append, List.map_cons]
  have hread := Directory.fails_read
    (d := directoryOf fields stream (indexBody fields index)) hsummaries
    (by rwa [directoryOf, List.length_map]) (by rwa [directoryOf, List.length_map])
    (fun x hx => by
      obtain ⟨y, hy, rfl⟩ := List.mem_map.mp hx
      have hmem : y ∈ fields := by simp [hfields, hy]
      exact (hhas.inside y hmem).listed hsizes (hreadable y hmem).small (hreadable y hmem).sums
        (hfront y hy) (hreadable y hmem).known)
    ((hhas.inside s hs).legible hsizes (hreadable s hs).small (hreadable s hs).known) hcheck
    (summaries_increasing hnumbers)
  have hboth : (Frame.readHeader (Streams.expectation segment Streams.codecs.directory)
      >>= fun _ => Directory.read infos).run
      (headerBytes segment Streams.codecs.directory
        ++ Item.encodeAll (directoryOf fields stream (indexBody fields index)).items)
      = .error (.corrupt (.docFreqBelowDocCount s.info.name s.terms.docFreqs
          (UInt32.ofNat s.docs.distinct).toNat)) :=
    ((takes_header Streams.codecs.directory hcodec hsuffix).bind_fails hread).run
  rw [Reader.open, checkStreams]
  simp only [Frame.checkFooter_framed, ok_bind, Frame.take_framed]
  rw [hboth]
  rfl

end Reader

end Lexicon
