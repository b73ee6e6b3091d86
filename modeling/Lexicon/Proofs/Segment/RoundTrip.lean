import Lexicon.Proofs.Segment.Opening

/-!
# A segment is read back

`SegmentScript` is a run of the writer over sinks in memory: a segment is started, fields are opened
and written, each finished or dropped, and the segment is ended. `SegmentScript.Fits` is what the
caller promises and what the formats can hold.

> **`SegmentScript.read_back`** — such a segment is written and opened, and its finished fields list
> all their terms;
> **`SegmentScript.look_up`** — and every lookup in them agrees with the list.
-/

namespace Lexicon

/-- What is done with a segment: all its fields are written, and it is ended. -/
structure SegmentScript where
  segment : Segment
  sizes : BlockSizes
  fields : List FieldScript

namespace SegmentScript

def infos (s : SegmentScript) : List FieldInfo := s.fields.map (·.info)

def finished (s : SegmentScript) : List FieldScript := s.fields.filter (·.finished)

/-- The writer once all fields were written. -/
def written (s : SegmentScript) : Except Error (Writer Memory) :=
  match Writer.start s.segment s.sizes ⟨{}, {}, {}⟩ with
  | (.error e, _) => .error e
  | (.ok (), w) =>
    match Writer.runAll s.fields w with
    | .ok () w => .ok w
    | .error e _ => .error e

/-- The streams once the segment was ended. -/
def streams (s : SegmentScript) : Except Error (Streams Bytes) := do
  match Writer.intoStreams (← s.written) with
  | .ok sinks _ => return sinks.map Memory.bytes
  | .error e _ => throw e

/-- The segment is one that the formats can hold, and its fields are written as they have to be. -/
structure Fits (s : SegmentScript) : Prop where
  sizes : s.sizes.check = .ok ()
  numbers : s.infos.Pairwise (·.number < ·.number)
  count : s.fields.length < 2 ^ 32
  acceptable : ∀ f ∈ s.fields, f.Acceptable
  /-- No block is too large for its format. -/
  small : ∀ f ∈ s.finished, f.kept.Small s.sizes
  /-- The sums over a field are no larger than 64 bits, and its documents are not more than those of
  its terms. -/
  sums : ∀ f ∈ s.finished, f.kept.totalFreqs < 2 ^ 64 ∧
    (f.terms ≠ [] → DocList.distinct (FieldStep.docs f.steps) ≤ f.terms.docFreqs)
  suffix : (Bytes.ofString s.segment.suffix).length < 2 ^ 32
  /-- An offset in the stream of blocks is stored together with two flags. -/
  addressable : ∀ w, s.written = .ok w →
    w.terms.position + Frame.footerLength ≤ 2 ^ 62 ∧ w.index.position < 2 ^ 63

/-- As `Fits`, but any documents may be noted. -/
structure Storable (s : SegmentScript) : Prop where
  sizes : s.sizes.check = .ok ()
  numbers : s.infos.Pairwise (·.number < ·.number)
  count : s.fields.length < 2 ^ 32
  acceptable : ∀ f ∈ s.fields, f.Acceptable
  small : ∀ f ∈ s.finished, f.kept.Small s.sizes
  total : ∀ f ∈ s.finished, f.kept.totalFreqs < 2 ^ 64
  suffix : (Bytes.ofString s.segment.suffix).length < 2 ^ 32
  addressable : ∀ w, s.written = .ok w →
    w.terms.position + Frame.footerLength ≤ 2 ^ 62 ∧ w.index.position < 2 ^ 63

theorem Fits.storable {s : SegmentScript} (h : s.Fits) : s.Storable where
  sizes := h.sizes
  numbers := h.numbers
  count := h.count
  acceptable := h.acceptable
  small := h.small
  total f hf := (h.sums f hf).1
  suffix := h.suffix
  addressable := h.addressable

end SegmentScript

/-! ## What is kept of terms -/

/-- A normal form is its own normal form. -/
theorem TermState.normalized_normalized (state : TermState) (hasFreqs : Bool) :
    (state.normalized hasFreqs).normalized hasFreqs = state.normalized hasFreqs := by
  cases hasFreqs <;> rfl

namespace Terms

variable {terms : Terms} {hasFreqs : Bool}

/-- What is kept is kept. -/
theorem kept_kept (terms : Terms) (hasFreqs : Bool) :
    Terms.kept (terms.kept hasFreqs) hasFreqs = terms.kept hasFreqs := by
  rw [kept, kept, List.map_map]
  refine List.map_congr_left fun t _ => ?_
  rw [Function.comp_apply, TermState.normalized_normalized]

/-- What is kept of accepted terms is accepted. -/
theorem accepted_kept (h : FieldWriter.Accepted hasFreqs terms) :
    FieldWriter.Accepted hasFreqs (terms.kept hasFreqs) := by
  intro t ht
  obtain ⟨x, hx, rfl⟩ := List.mem_map.mp ht
  exact FieldWriter.check_normalized (h x hx)

/-- What starts with a prefix is kept as it is. -/
theorem kept_startingWith (terms : Terms) (hasFreqs : Bool) (p : Bytes) :
    Terms.kept (terms.startingWith p) hasFreqs = (terms.kept hasFreqs).startingWith p := by
  rw [startingWith, startingWith, kept, kept, List.filter_map]
  rfl

/-- A term is looked up in what is kept as it is in all. -/
theorem lookup_kept (terms : Terms) (hasFreqs : Bool) (key : Bytes) :
    (terms.kept hasFreqs).lookup key = (terms.lookup key).map (·.normalized hasFreqs) := by
  induction terms with
  | nil => rfl
  | cons t terms ih =>
    show ((t.1, t.2.normalized hasFreqs) :: Terms.kept terms hasFreqs).lookup key = _
    rw [List.lookup_cons, List.lookup_cons, ih]
    cases key == t.1 <;> rfl

/-- A kept term occurs in every one of its documents. -/
theorem docFreq_le_of_kept (h : FieldWriter.Accepted hasFreqs terms) :
    ∀ t ∈ terms.kept hasFreqs, t.2.docFreq.toNat ≤ t.2.totalFreq.toNat := by
  intro t ht
  have hcheck := accepted_kept h t ht
  obtain ⟨x, -, rfl⟩ := List.mem_map.mp ht
  cases hasFreqs with
  | true => exact (recordable_of_check hcheck).2 rfl
  | false =>
    show x.2.docFreq.toNat ≤ x.2.docFreq.toUInt64.toNat
    rw [UInt32.toNat_toUInt64]

end Terms

/-- A stored field has only what is kept of its terms. -/
theorem FieldScript.StoredAs.kept_eq {script : FieldScript} {s : StoredField}
    (h : script.StoredAs s) : s.terms.kept s.hasFreqs = s.terms := by
  rw [h.terms, StoredField.hasFreqs, h.info]
  exact Terms.kept_kept ..

/-! ## Readers of stored fields -/

namespace FieldReader.Reads

variable {sizes : BlockSizes} {s : StoredField} {f : FieldReader}

/-- A reader of a stored field lists the terms with a prefix. -/
theorem startingWith_eq (h : f.Reads sizes s) (hkept : s.terms.kept s.hasFreqs = s.terms)
    (wanted : Bytes) (codec : LongsCodec) :
    ∃ codec', f.startingWith wanted codec = .ok (s.terms.startingWith wanted) codec' := by
  cases htree : s.tree with
  | none =>
    refine ⟨codec, ?_⟩
    rw [FieldReader.startingWith, h.index, htree, h.empty htree]
    rfl
  | some tree =>
    obtain ⟨codec', hlist⟩ :=
      FieldReader.startingWith_eq (h.shows tree.1 tree.2 htree) wanted codec
    rw [h.info, Terms.kept_startingWith] at hlist
    rw [← StoredField.hasFreqs, hkept] at hlist
    exact ⟨codec', hlist⟩

/-- A reader of a stored field finds each of its terms, and no other. -/
theorem seek?_eq (h : f.Reads sizes s) (hkept : s.terms.kept s.hasFreqs = s.terms) (term : Bytes)
    (codec : LongsCodec) : ∃ codec', f.seek? term codec = .ok (s.terms.lookup term) codec' := by
  cases htree : s.tree with
  | none =>
    refine ⟨codec, ?_⟩
    rw [FieldReader.seek?, h.index, htree, h.empty htree]
    rfl
  | some tree =>
    obtain ⟨codec', hseek⟩ := FieldReader.seek?_eq (h.shows tree.1 tree.2 htree) term codec
    rw [h.info, ← Terms.lookup_kept] at hseek
    rw [← StoredField.hasFreqs, hkept] at hseek
    exact ⟨codec', hseek⟩

end FieldReader.Reads

/-! ## Segments -/

namespace SegmentScript

variable {s : SegmentScript}

/-- What a finished field is stored as can be read. -/
theorem Storable.readable (h : s.Storable) {script : FieldScript} {stored : StoredField}
    (hscript : script ∈ s.finished) (hstored : script.StoredAs stored) :
    stored.Readable s.sizes s.infos := by
  have hmem : script ∈ s.fields := List.mem_of_mem_filter hscript
  have haccepted := (h.acceptable script hmem).accepted
  have hfreqs : stored.hasFreqs = script.hasFreqs := by
    rw [StoredField.hasFreqs, hstored.info]
    rfl
  refine ⟨?_, ?_, ?_, ⟨?_, ?_⟩⟩
  · rw [hstored.info]
    exact (h.numbers.imp UInt32.ne_of_lt).find?_eq (List.mem_map_of_mem hmem)
  · rw [hfreqs, hstored.terms]
    exact Terms.accepted_kept haccepted
  · rw [hstored.terms]
    exact h.small script hscript
  · rw [hstored.terms]
    exact Terms.docFreq_le_of_kept haccepted
  · rw [hstored.terms]
    exact h.total script hscript

/-- What a script leaves: the writer with the fields that it stored, and the streams once it was
ended. -/
structure Leaves (s : SegmentScript) (w : Writer Memory) (stored : List StoredField)
    (blocks indexes : Bytes) (streams : Streams Bytes) : Prop where
  written : s.written = .ok w
  has : w.Has s.sizes s.infos stored (headerBytes s.segment Streams.codecs.terms ++ blocks)
    (headerBytes s.segment Streams.codecs.index ++ indexes)
    (headerBytes s.segment Streams.codecs.directory)
  adds : Adds s.sizes (headerBytes s.segment Streams.codecs.terms) s.fields stored blocks
  ended : s.streams = .ok streams
  terms_eq : streams.terms = Frame.framed (headerBytes s.segment Streams.codecs.terms ++ blocks)
  index_eq : streams.index
    = Frame.framed (indexBody stored (headerBytes s.segment Streams.codecs.index ++ indexes))
  directory_eq : streams.directory = Frame.framed (headerBytes s.segment Streams.codecs.directory
    ++ Item.encodeAll (directoryOf stored (headerBytes s.segment Streams.codecs.terms ++ blocks)
      (indexBody stored (headerBytes s.segment Streams.codecs.index ++ indexes))).items)

/-- **A segment is written**, and its streams are ended. -/
theorem Storable.leaves (h : s.Storable) :
    ∃ w stored blocks indexes streams, s.Leaves w stored blocks indexes streams := by
  have hsizes := BlockSizes.valid_of_check h.sizes
  obtain ⟨w, hstart, hhas⟩ := Writer.start_spec s.segment h.sizes
  obtain ⟨w', blocks, indexes, stored, hrun, hhas', hadds, -⟩ :=
    Writer.runAll_spec hsizes s.fields hhas h.acceptable h.numbers
  rw [List.nil_append, List.nil_append, ← infos] at hhas'
  have hwritten : s.written = .ok w' := by
    rw [written, hstart]
    simp only [hrun]
  have hshort := (h.addressable w' hwritten).2
  rw [hhas'.holds.index.position] at hshort
  obtain ⟨sinks, w'', hinto, hsealed⟩ := Writer.intoStreams_spec hhas' hshort
  have hstreams : s.streams = .ok (sinks.map Memory.bytes) := by
    rw [streams, hwritten]
    show (match Writer.intoStreams w' with
      | .ok sinks _ => pure (sinks.map Memory.bytes)
      | .error e _ => throw e : Except Error (Streams Bytes)) = _
    rw [hinto]
    rfl
  exact ⟨w', stored, blocks, indexes, _, hwritten, hhas', hadds, hstreams, hsealed.terms_eq,
    hsealed.index_eq, hsealed.directory_eq⟩

namespace Leaves

variable {w : Writer Memory} {stored : List StoredField} {blocks indexes : Bytes}
  {streams : Streams Bytes}

theorem streams_eq (h : s.Leaves w stored blocks indexes streams) :
    streams = ⟨Frame.framed (headerBytes s.segment Streams.codecs.terms ++ blocks),
      Frame.framed (indexBody stored (headerBytes s.segment Streams.codecs.index ++ indexes)),
      Frame.framed (headerBytes s.segment Streams.codecs.directory
        ++ Item.encodeAll (directoryOf stored (headerBytes s.segment Streams.codecs.terms ++ blocks)
          (indexBody stored (headerBytes s.segment Streams.codecs.index ++ indexes))).items)⟩ := by
  rw [← h.terms_eq, ← h.index_eq, ← h.directory_eq]

/-- A reader can make out each stored field. -/
theorem readable (h : s.Leaves w stored blocks indexes streams) (hs : s.Storable) :
    ∀ x ∈ stored, x.Readable s.sizes s.infos := fun x hx => by
  obtain ⟨script, hscript, hstoredAs⟩ := h.adds.storedAs.exists_left hx
  exact hs.readable hscript hstoredAs

/-- No more fields are stored than were written. -/
theorem length_le (h : s.Leaves w stored blocks indexes streams) :
    stored.length ≤ s.fields.length := by
  rw [← h.adds.storedAs.length_eq]
  exact List.length_filter_le ..

/-- The stored fields are in the order of their numbers. -/
theorem numbers (h : s.Leaves w stored blocks indexes streams) (hs : s.Storable) :
    stored.Pairwise (·.info.number < ·.info.number) := by
  have hstored : List.Forall₂ FieldScript.StoredAs s.finished stored := h.adds.storedAs
  have hsub : (s.finished.map (·.info)).Sublist s.infos := List.filter_sublist.map _
  rw [(hstored.imp fun _ _ h => h.info.symm).map_eq] at hsub
  have hpair := hs.numbers.sublist hsub
  rwa [List.pairwise_map] at hpair

/-- **The segment is opened**, unless more documents were noted of a field than its terms have. -/
theorem opens (h : s.Leaves w stored blocks indexes streams) (hs : s.Storable)
    (hdocs : ∀ f ∈ s.finished, ¬ f.Exceeded) : ∃ r, Reader.open streams s.segment s.infos = .ok r ∧
      List.Forall₂ (FieldReader.Reads s.sizes) stored r.fields := by
  obtain ⟨hlong, hshort⟩ := hs.addressable w h.written
  rw [h.has.holds.terms.position] at hlong
  rw [h.has.holds.index.position] at hshort
  have hcount := hs.count
  have hlength := h.length_le
  have hfew : ∀ x ∈ stored, ¬ x.terms.Exceeded x.docs := fun x hx => by
    obtain ⟨script, hscript, hstoredAs⟩ := h.adds.storedAs.exists_left hx
    exact mt hstoredAs.exceeded_iff.mp (hdocs script hscript)
  obtain ⟨readers, hopen, hreaders⟩ := Reader.open_spec (BlockSizes.valid_of_check hs.sizes)
    hs.suffix h.has rfl rfl (h.readable hs) hfew (by omega)
    (hlength.trans_eq (List.length_map ..).symm) (h.numbers hs)
    (by rw [Frame.length_framed]; exact hlong) hshort
  exact ⟨⟨s.segment, readers⟩, by rw [h.streams_eq, hopen], hreaders⟩

/-- **The segment is refused** for the first such field. -/
theorem refused (h : s.Leaves w stored blocks indexes streams) (hs : s.Storable)
    {front rest : List FieldScript} {f : FieldScript} (hfinished : s.finished = front ++ f :: rest)
    (hfront : ∀ x ∈ front, ¬ x.Exceeded) (hf : f.Exceeded) :
    Reader.open streams s.segment s.infos
      = .error (.corrupt (.docFreqBelowDocCount f.info.name f.terms.docFreqs
        (UInt32.ofNat (DocList.distinct (FieldStep.docs f.steps))).toNat)) := by
  have hcount := hs.count
  have hlength := h.length_le
  have hstored : List.Forall₂ FieldScript.StoredAs s.finished stored := h.adds.storedAs
  rw [hfinished] at hstored
  have hbefore := (List.forall₂_take_append _ _ _ hstored.flip).flip
  have hafter := (List.forall₂_drop_append _ _ _ hstored.flip).flip
  obtain ⟨x, others, hx, -, hdrop⟩ := List.forall₂_cons_left_iff.mp hafter
  have hsplit := List.take_append_drop front.length stored
  rw [hdrop] at hsplit
  rw [h.streams_eq, Reader.open_refused (BlockSizes.valid_of_check hs.sizes) hs.suffix h.has
    (h.readable hs) (by omega) (hlength.trans_eq (List.length_map ..).symm) (h.numbers hs)
    hsplit.symm
    (fun y hy => by
      obtain ⟨script, hscript, hstoredAs⟩ := hbefore.exists_left hy
      exact mt hstoredAs.exceeded_iff.mp (hfront script hscript)) (hx.exceeded_iff.mpr hf),
    hx.info, hx.terms, hx.docs, FieldScript.kept, Terms.docFreqs_kept]

end Leaves

/-- **A segment is written and opened**, with a reader for each finished field; and between the
header and the footer, its stream of blocks has what was emitted for its fields. -/
theorem Fits.opens_whole (h : s.Fits) :
    ∃ streams r stored blocks, s.streams = .ok streams ∧
      Reader.open streams s.segment s.infos = .ok r ∧
      streams.terms = Frame.framed (headerBytes s.segment Streams.codecs.terms ++ blocks) ∧
      streams.terms.length ≤ 2 ^ 62 ∧
      Adds s.sizes (headerBytes s.segment Streams.codecs.terms) s.fields stored blocks ∧
      List.Forall₂ (FieldReader.Reads s.sizes) stored r.fields := by
  obtain ⟨w, stored, blocks, indexes, streams, hleaves⟩ := h.storable.leaves
  obtain ⟨r, hopen, hreads⟩ := hleaves.opens h.storable fun f hf =>
    Terms.not_exceeded (h.sums f hf).2
  refine ⟨streams, r, stored, blocks, hleaves.ended, hopen, hleaves.terms_eq, ?_, hleaves.adds,
    hreads⟩
  have hlong := (h.addressable w hleaves.written).1
  rw [hleaves.has.holds.terms.position] at hlong
  rw [hleaves.terms_eq, Frame.length_framed]
  exact hlong

/-- The finished fields are stored and read. -/
theorem Fits.opens (h : s.Fits) :
    ∃ streams r stored, s.streams = .ok streams ∧ Reader.open streams s.segment s.infos = .ok r ∧
      List.Forall₂ FieldScript.StoredAs s.finished stored ∧
      List.Forall₂ (FieldReader.Reads s.sizes) stored r.fields := by
  obtain ⟨streams, r, stored, _, hstreams, hopen, -, -, hadds, hreads⟩ := h.opens_whole
  exact ⟨streams, r, stored, hstreams, hopen, hadds.storedAs, hreads⟩

/-- **A segment is read back.** Every run of the writer that keeps to its order ends in streams that
are accepted; the directory lists the fields that were finished, in order; and each of them lists
all its terms, whatever the codec was used for before. -/
theorem read_back (s : SegmentScript) (h : s.Fits) :
    ∃ streams r, s.streams = .ok streams ∧ Reader.open streams s.segment s.infos = .ok r ∧
      List.Forall₂ (fun (script : FieldScript) (f : FieldReader) =>
        f.info = script.info ∧ f.summary.number = script.info.number ∧
          ∀ codec, ∃ codec', f.allTerms codec = .ok script.kept codec') s.finished r.fields := by
  obtain ⟨streams, r, stored, hstreams, hopen, hstored, hreads⟩ := h.opens
  refine ⟨streams, r, hstreams, hopen, hstored.through hreads ?_⟩
  intro script x f hscript hx
  refine ⟨hx.info.trans hscript.info, ?_, fun codec => ?_⟩
  · rw [hx.summary, x.summary_number, hscript.info]
  · obtain ⟨codec', hlist⟩ := hx.startingWith_eq hscript.kept_eq [] codec
    rw [Terms.startingWith_of_all fun t _ => List.nil_prefix, hscript.terms] at hlist
    exact ⟨codec', hlist⟩

/-- A segment whose terms are light fits if it does as far as can be computed. -/
theorem fits_of_light (hsizes : s.sizes.check = .ok ())
    (hnumbers : s.infos.Pairwise (·.number < ·.number)) (hcount : s.fields.length < 2 ^ 32)
    (hacceptable : ∀ f ∈ s.fields, f.terms.keys.Pairwise (· < ·) ∧
      FieldWriter.Accepted f.hasFreqs f.terms ∧ Room f.terms)
    (hlight : ∀ f ∈ s.finished, f.kept.load < 2 ^ 31)
    (hsums : ∀ f ∈ s.finished, f.kept.totalFreqs < 2 ^ 64 ∧
      (f.terms ≠ [] → DocList.distinct (FieldStep.docs f.steps) ≤ f.terms.docFreqs))
    (hsuffix : (Bytes.ofString s.segment.suffix).length < 2 ^ 32)
    (hstreams : (match s.written with
      | .ok w => decide (w.terms.position + Frame.footerLength ≤ 2 ^ 62 ∧ w.index.position < 2 ^ 63)
      | .error _ => true) = true) : s.Fits where
  sizes := hsizes
  numbers := hnumbers
  count := hcount
  acceptable f hf :=
    ⟨(hacceptable f hf).1, (hacceptable f hf).2.1, (hacceptable f hf).2.2⟩
  small f hf := Terms.small_of_load s.sizes (hlight f hf)
  sums := hsums
  suffix := hsuffix
  addressable w hw := by
    rw [hw] at hstreams
    exact of_decide_eq_true hstreams

/-- Two fields that are finished, and one between them that is dropped. -/
def sample : SegmentScript where
  segment := { name := "_0", id := default }
  sizes := {}
  fields :=
    [{ info := ⟨"title", 1, .docs⟩
       steps := [.write [] ⟨⟨1, 1⟩, []⟩, .write [97] ⟨⟨2, 7⟩, [5]⟩, .record [1, 2],
        .write [97, 98] ⟨⟨1, 1⟩, []⟩] },
     { info := ⟨"draft", 2, .freqs⟩, steps := [.write [120] ⟨⟨1, 1⟩, []⟩], finished := false },
     { info := ⟨"body", 5, .freqs⟩, steps := [.write [98] ⟨⟨3, 4⟩, [1, 2]⟩, .record [1, 2, 3]] }]

theorem fits_sample : sample.Fits :=
  fits_of_light rfl (by decide) (by decide) (by decide) (by decide) (by decide) (by decide +kernel)
    (by decide +kernel)

/-- Three fields, of which the second is dropped. -/
theorem read_back_sample : sample.Fits ∧ ∃ streams r, sample.streams = .ok streams ∧
    Reader.open streams sample.segment sample.infos = .ok r ∧
      List.Forall₂ (fun (script : FieldScript) (f : FieldReader) =>
        f.info = script.info ∧ f.summary.number = script.info.number ∧
          ∀ codec, ∃ codec', f.allTerms codec = .ok script.kept codec') sample.finished r.fields :=
  ⟨fits_sample, read_back sample fits_sample⟩

/-- **Lookups agree with the list of all terms**, of every field that was finished and for every
string, whatever the codec was used for before. -/
theorem look_up (s : SegmentScript) (h : s.Fits) :
    ∃ streams r, s.streams = .ok streams ∧ Reader.open streams s.segment s.infos = .ok r ∧
      List.Forall₂ (fun (script : FieldScript) (f : FieldReader) => f.info = script.info ∧
        ∀ (q : Bytes) (codec : LongsCodec),
          (∃ codec', f.seek? q codec = .ok (script.kept.lookup q) codec') ∧
          (∃ codec', f.allTerms codec = .ok script.kept codec') ∧
          ∃ codec', f.startingWith q codec
            = .ok (script.kept.filter fun t => q.isPrefixOf t.1) codec') s.finished r.fields := by
  obtain ⟨streams, r, stored, hstreams, hopen, hstored, hreads⟩ := h.opens
  refine ⟨streams, r, hstreams, hopen, hstored.through hreads ?_⟩
  intro script x f hscript hx
  have hlist := hx.startingWith_eq hscript.kept_eq
  have hseek := hx.seek?_eq hscript.kept_eq
  rw [hscript.terms] at hlist hseek
  refine ⟨hx.info.trans hscript.info, fun q codec => ⟨hseek q codec, ?_, hlist q codec⟩⟩
  have hall := hlist [] codec
  rwa [Terms.startingWith_of_all fun t _ => List.nil_prefix] at hall

/-- The same fields, looked up in. -/
theorem look_up_sample : sample.Fits ∧ ∃ streams r, sample.streams = .ok streams ∧
    Reader.open streams sample.segment sample.infos = .ok r ∧
      List.Forall₂ (fun (script : FieldScript) (f : FieldReader) => f.info = script.info ∧
        ∀ (q : Bytes) (codec : LongsCodec),
          (∃ codec', f.seek? q codec = .ok (script.kept.lookup q) codec') ∧
          (∃ codec', f.allTerms codec = .ok script.kept codec') ∧
          ∃ codec', f.startingWith q codec
            = .ok (script.kept.filter fun t => q.isPrefixOf t.1) codec')
        sample.finished r.fields :=
  ⟨fits_sample, look_up sample fits_sample⟩

end SegmentScript

end Lexicon
