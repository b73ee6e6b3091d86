import Lexicon.Proofs.Listing.Acceptance
import Lexicon.Proofs.Listing.Lengths

/-!
# From a listing to lookups

A segment is built for a listing that was read from a text, in files that take it. What is looked up
in it afterwards is what the lines of the text tell, by `Told.Answers`: which fields there are,
which terms, and for each term its documents and how often it occurs in them.

> **`Listing.build_spec`** — the segment is built, and is in its files;
> **`Listing.fits_of_short`** — the formats hold whatever a text can tell that is not too long;
> **`Listing.build_look_up`** — and all that its lines tell is found in it, and nothing else.
-/

namespace Lexicon

/-! ## Doing things that succeed -/

namespace Doing

variable {α : Type} {fs fs' : Files} {a : α}

/-- A task that succeeds is done. -/
theorem within_ok {task : Task} {c : Doing α} (h : c fs = .ok a fs') :
    within task c fs = .ok a fs' := by
  rw [within, h]

theorem orFail_ok {c : Stored α} (h : c fs = .ok a fs') : orFail c fs = .ok a fs' := by
  rw [orFail, h]

theorem onFiles_ok {c : OnFiles α} (h : c fs = .ok a fs') : onFiles c fs = .ok a fs' := by
  rw [onFiles, h]

end Doing

/-! ## A segment is built -/

/-- The files of a segment whose streams and document lists were written. -/
structure Files.Holds (fs : Files) (s : Segment) (dir : Path) (streams : Streams Bytes)
    (lists : Bytes) : Prop where
  opens : ∀ infos, Reader.openIn fs dir s infos = Reader.open streams s infos
  reads : fs.read (s.path dir Segment.postingsExtension) = .ok lists

namespace Listing

variable {l : Listing} {segment : Segment} {sizes : BlockSizes} {fs : Files} {dir : Path}

/-- All that is written to the files of a segment, in order. -/
def writes (w : Writer Memory) (createdAt : UInt64) (lists : Bytes) : List (String × Bytes) :=
  Streams.writes ⟨[], [], []⟩ ++ w.stored createdAt ++ [(Segment.postingsExtension, lists)]

/-- The files of a segment have extensions of their own. -/
theorem mem_extensions (w : Writer Memory) (createdAt : UInt64) (lists : Bytes) :
    ∀ x ∈ writes w createdAt lists, x.1 ∈ Segment.extensions := by
  simp [writes, Writer.stored, Streams.writes, Segment.extensions]

/-- What is in the files in the end is what the writer's sinks hold, and the lists. -/
theorem holds_fill {spots : String → Spot} (h : fs.Houses segment dir spots) (w : Writer Memory)
    (createdAt : UInt64) (lists : Bytes) :
    (fs.fill spots (writes w createdAt lists)).Holds segment dir
      ⟨w.terms.sink.bytes, w.index.sink.bytes, w.directory.sink.bytes⟩ lists := by
  have hall := mem_extensions w createdAt lists
  have hhouses := h.fill hall
  refine ⟨fun infos => Reader.openIn_eq hhouses ?_ ?_ ?_ infos, ?_⟩
  · exact h.node?_fill hall (by simp [Segment.extensions]) rfl
  · exact h.node?_fill hall (by simp [Segment.extensions]) rfl
  · exact h.node?_fill hall (by simp [Segment.extensions]) rfl
  · have hlists := h.node?_fill (e := Segment.postingsExtension) hall (by simp [Segment.extensions])
      rfl
    exact ((hhouses _ (by simp [Segment.extensions])).read hlists).1

/-- **A segment is built** where its files can be written. -/
theorem build_spec (hfiles : fs.Willing segment dir) (hsizes : sizes.check = .ok ())
    {streams : Streams Bytes} (hstreams : (l.script segment sizes).streams = .ok streams)
    (createdAt : UInt64) :
    ∃ report fs', l.build dir segment sizes createdAt fs = .ok report fs' ∧
      fs'.Holds segment dir streams (DocLists.stream segment (l.encode segment).1) := by
  obtain ⟨made, spots, hmade, hhouses⟩ := hfiles.houses
  obtain ⟨w₀, w₁, w₂, hstart, hrun, hopen, hclose, hsegment, rfl⟩ :=
    SegmentScript.exists_of_streams hstreams
  have hcheck : Doing.ofExcept sizes.check fs = .ok () fs := by
    rw [hsizes]
    rfl
  have hcreate := Writer.create_spec hsizes (Files.makeDirs_again hmade) hhouses hstart
  -- the files stay empty until the writer is closed
  have hempty := hhouses.fill (Streams.mem_extensions ⟨[], [], []⟩)
  have hfields : writeFields (l.encode segment).2 w₀ = .ok () w₁ := by
    rw [writeFields_eq]
    exact hrun
  have hdictionary := writeDictionary_spec hfields hopen hclose (by rw [hsegment]; exact hempty)
    createdAt
  rw [← Files.fill_append] at hdictionary
  have hstored :
      (made.fill spots (Streams.writes ⟨[], [], []⟩ ++ w₂.stored createdAt)).Houses segment dir
        spots :=
    hhouses.fill fun x hx => mem_extensions w₂ createdAt [] x (List.mem_append_left _ hx)
  have hlists := hstored.write (e := Segment.postingsExtension) (by simp [Segment.extensions])
    (DocLists.stream segment (l.encode segment).1)
  rw [← Files.fill_append] at hlists
  refine ⟨w₂.report, _, ?_, holds_fill hhouses w₂ createdAt _⟩
  rw [build, bind_ok (Doing.within_ok hcheck), bind_ok (Doing.within_ok (Doing.onFiles_ok hmade))]
  show (Doing.within .createDictionary (Doing.orFail (Writer.create dir segment sizes)) >>= fun w =>
    writeDictionary (l.encode segment).2 dir createdAt w >>= fun w =>
    Doing.within (.writeDocLists (segment.path dir Segment.postingsExtension)) (Doing.onFiles
      (Files.write (segment.path dir Segment.postingsExtension)
        (DocLists.stream segment (l.encode segment).1))) >>= fun _ => pure w.report) made = _
  rw [bind_ok (Doing.within_ok (Doing.orFail_ok hcreate)), bind_ok hdictionary,
    bind_ok (Doing.within_ok (Doing.onFiles_ok hlists))]
  rfl

end Listing

/-! ## What the lines of a listing answer -/

namespace Told

/-- The documents of a term in order, each with how often the term occurs in it: once in fields
without frequencies. -/
def docFreqs (lines : Told) (field : String) (term : Bytes) : List (UInt32 × UInt32) :=
  (lines.docs field term).map fun doc =>
    (doc, if lines.hasFreqs field then .ofNat (lines.occurrences field term doc) else 1)

/-- How often a term occurs in all its documents: once in each in fields without frequencies. -/
def total (lines : Told) (field : String) (term : Bytes) : Nat :=
  if lines.hasFreqs field then ((lines.docs field term).map (lines.occurrences field term)).sum
  else (lines.docs field term).length

/-- In fields with frequencies, gaps between documents have 31 bits, the first one from zero, and
frequencies add up to no more than 32 bits. -/
structure Countable (lines : Told) : Prop where
  gaps : ∀ field term, lines.hasFreqs field = true →
    (0 :: lines.docs field term).IsChain DocFreqs.Near
  freqs : ∀ field term doc, lines.hasFreqs field = true →
    lines.occurrences field term doc < 2 ^ 32

/-- What no line names has no documents, so that it is enough to look at what the lines name. -/
theorem countable_iff {lines : Told} : lines.Countable ↔
    ∀ line ∈ lines, lines.hasFreqs line.field = true →
      (0 :: lines.docs line.field line.term).IsChain DocFreqs.Near ∧
        ∀ n ∈ (lines.docs line.field line.term).map (lines.occurrences line.field line.term),
          n < 2 ^ 32 := by
  constructor
  · intro h line _ hfreqs
    refine ⟨h.gaps _ _ hfreqs, fun n hn => ?_⟩
    obtain ⟨doc, -, rfl⟩ := List.mem_map.mp hn
    exact h.freqs _ _ doc hfreqs
  · intro h
    have hnamed : ∀ {field term} {doc : UInt32}, doc ∈ lines.docs field term →
        ∃ line ∈ lines, line.field = field ∧ line.term = term := by
      intro field term doc hdoc
      rw [docs, List.mem_insertionSort, List.mem_eraseDups] at hdoc
      obtain ⟨p, hp, -⟩ := List.mem_map.mp hdoc
      obtain ⟨line, hline, -⟩ := List.mem_flatMap.mp hp
      obtain ⟨hfield, hterm⟩ := List.mem_filter.mp hline
      obtain ⟨hmem, hname⟩ := List.mem_filter.mp hfield
      exact ⟨line, hmem, of_decide_eq_true hname, of_decide_eq_true hterm⟩
    refine ⟨fun field term hfreqs => ?_, fun field term doc hfreqs => ?_⟩
    · by_cases hnone : lines.docs field term = []
      · rw [hnone]
        exact List.isChain_singleton 0
      · obtain ⟨doc, hdoc⟩ := List.exists_mem_of_ne_nil _ hnone
        obtain ⟨line, hmem, rfl, rfl⟩ := hnamed hdoc
        exact (h line hmem hfreqs).1
    · by_cases hdoc : doc ∈ lines.docs field term
      · obtain ⟨line, hmem, rfl, rfl⟩ := hnamed hdoc
        exact (h line hmem hfreqs).2 _ (List.mem_map_of_mem hdoc)
      · rw [docs, List.mem_insertionSort, List.mem_eraseDups, List.mem_map] at hdoc
        have hnone : (lines.ofTerm field term).postings.filter (·.doc = doc) = [] :=
          List.filter_eq_nil_iff.mpr fun p hp hsame => hdoc ⟨p, hp, of_decide_eq_true hsame⟩
        rw [occurrences, hnone]
        exact Nat.two_pow_pos 32

instance (lines : Told) : Decidable lines.Countable := decidable_of_iff _ countable_iff.symm

/-- What a term that is found has: its statistics, and where its documents are read. -/
structure Answers (lines : Told) (lists : Bytes) (f : FieldReader) (term : Bytes)
    (state : TermState) : Prop where
  docFreq : state.docFreq.toNat = (lines.docs f.info.name term).length
  totalFreq : state.totalFreq.toNat = lines.total f.info.name term
  docs : ∃ offset : UInt64, state.longs = [offset] ∧
    DocLists.readAt lists offset.toNat f.info.options.hasFreqs
      = .ok (lines.docFreqs f.info.name term)

end Told

/-! ## Fields of a segment that was built -/

namespace Listing

variable {l : Listing} {segment : Segment} {sizes : BlockSizes} {lists : Bytes} {f : FieldListing}
  {x : FieldInfo × FieldTerms} {lines : Told}

/-- A field of a listing and the reader that it is read with. -/
structure ReadBack (segment : Segment) (sizes : BlockSizes) (lists : Bytes) (f : FieldListing)
    (x : FieldInfo × FieldTerms) (s : StoredField) (r : FieldReader) : Prop where
  taken : Taken segment lists f x
  stored : (fieldScript x).StoredAs s
  reads : r.Reads sizes s

/-- **Every field of the listing has a reader**, and there are no others. -/
theorem Fits.opens (h : (l.script segment sizes).Fits) :
    ∃ streams r, (l.script segment sizes).streams = .ok streams ∧
      Reader.open streams segment l.fieldInfos = .ok r ∧
      List.Forall₂ (fun f reader => ∃ x ∈ (l.encode segment).2, ∃ s,
        ReadBack segment sizes (l.encode segment).1 f x s reader) l.fields.values r.fields := by
  obtain ⟨streams, r, stored, hstreams, hopen, hstored, hreads⟩ := SegmentScript.Fits.opens h
  rw [infos_script] at hopen
  rw [finished_script] at hstored
  have hread : List.Forall₂ (fun x reader => x ∈ (l.encode segment).2 ∧ ∃ s,
      (fieldScript x).StoredAs s ∧ reader.Reads sizes s) (l.encode segment).2 r.fields := by
    refine ((List.forall₂_map_left_iff.mp hstored).imp_of_mem (S := fun x s =>
      x ∈ (l.encode segment).2 ∧ (fieldScript x).StoredAs s) fun x hx s hs => ⟨hx, hs⟩).through
      hreads ?_
    exact fun x s reader hx hs => ⟨hx.1, s, hx.2, hs⟩
  refine ⟨streams, r, hstreams, hopen, (l.encode_taken segment).through hread ?_⟩
  rintro f x reader hf ⟨hx, s, hs, hreads⟩
  exact ⟨x, hx, s, hf, hs, hreads⟩

/-- What is written of a term is looked up by its key. -/
theorem lookup_of_kept {hasFreqs : Bool} {offset : Nat} {terms : List (Bytes × DocFreqs)}
    {kept : FieldTerms} (h : List.Forall₂ (DocLists.Kept hasFreqs offset lists) terms kept)
    (key : Bytes) :
    (terms.lookup key = none → (kept.map fun t => (t.1, t.2.1)).lookup key = none) ∧
      ∀ docs, terms.lookup key = some docs →
        ∃ t, DocLists.Kept hasFreqs offset lists (key, docs) t ∧
        (kept.map fun t => (t.1, t.2.1)).lookup key = some t.2.1 := by
  induction h with
  | nil => exact ⟨fun _ => rfl, nofun⟩
  | @cons p t terms kept hfirst _ ih =>
    obtain ⟨term, docs⟩ := p
    rw [List.map_cons, hfirst.term, List.lookup_cons, List.lookup_cons]
    by_cases hkey : key = term
    · subst hkey
      rw [beq_self_eq_true]
      refine ⟨nofun, fun docs' hdocs => ⟨t, ?_, rfl⟩⟩
      cases hdocs
      exact hfirst
    · rw [beq_false_of_ne hkey]
      exact ih

/-- The terms of a listing that was read have documents. -/
theorem Tells.toList_ne_nil (htells : l.Tells lines) (hf : f ∈ l.fields.values) {docs : DocFreqs}
    (hdocs : docs ∈ f.terms.values) : docs.toList ≠ [] := by
  obtain ⟨term, hget⟩ := SortedMap.mem_values_iff.mp hdocs
  have hterm : lines.ofTerm f.name term ≠ [] := fun hnil => by
    rw [htells.get?_term hf, if_pos hnil] at hget
    cases hget
  rw [htells.toList_eq hf hget]
  exact fun hnil => htells.docs_ne_nil hterm (List.map_eq_nil_iff.mp hnil)

/-- In fields with frequencies, its terms occur in their documents. -/
theorem Tells.positive (htells : l.Tells lines) (hcount : lines.Countable)
    (hf : f ∈ l.fields.values) (hfreqs : f.hasFreqs = true) {docs : DocFreqs}
    (hdocs : docs ∈ f.terms.values) : ∀ freq ∈ docs.values, freq ≠ 0 := by
  obtain ⟨term, hget⟩ := SortedMap.mem_values_iff.mp hdocs
  intro freq hfreq hzero
  rw [SortedMap.values, htells.toList_eq hf hget, List.map_map] at hfreq
  obtain ⟨doc, hdoc, hof⟩ := List.mem_map.mp hfreq
  have hlt := hcount.freqs f.name term doc (by rw [← htells.hasFreqs_eq hf, hfreqs])
  have hpos := htells.occurrences_pos hdoc
  have hnat := congrArg UInt32.toNat hof
  rw [hzero, Function.comp_apply, UInt32.toNat_ofNat_of_lt' hlt] at hnat
  exact Nat.ne_of_gt hpos hnat

/-- **The formats hold what a short text tells.** A text is short if it has less than 2^31 bytes,
and 28 less for each entry that a block may have. -/
theorem fits_of_short {data : Bytes} (hparse : parse data = .ok l) (hcount : (told data).Countable)
    (hsizes : sizes.check = .ok ()) (hsuffix : (Bytes.ofString segment.suffix).length < 2 ^ 32)
    (hshort : data.length + 28 * min sizes.max (data.length + 1) < 2 ^ 31) :
    l.Fits segment sizes := by
  have htells := parse_merges hparse
  have hweight := weight_le hparse
  refine fits_of_light hsizes hsuffix ?_ (fun f hf docs hdocs => htells.toList_ne_nil hf hdocs)
    fun f hf hfreqs docs hdocs => htells.positive hcount hf hfreqs hdocs
  omega

namespace ReadBack

variable {s : StoredField} {r : FieldReader} {term : Bytes}

/-- The field that is read has the name of the listed one. -/
theorem name_eq (h : ReadBack segment sizes lists f x s r) : r.info.name = f.name := by
  rw [h.reads.info, h.stored.info]
  exact h.taken.name

/-- The field that is read has frequencies if the listed one has. -/
theorem hasFreqs_eq (h : ReadBack segment sizes lists f x s r) :
    r.info.options.hasFreqs = f.hasFreqs := by
  rw [h.reads.info, h.stored.info, ← h.taken.hasFreqs_eq]
  rfl

/-- The field that is read finds what was listed of a term. -/
theorem seek?_eq (h : ReadBack segment sizes lists f x s r) (term : Bytes) (codec : LongsCodec) :
    ∃ codec', r.seek? term codec
      = .ok (((fieldScript x).terms.lookup term).map (·.normalized f.hasFreqs)) codec' := by
  obtain ⟨codec', hseek⟩ := h.reads.seek?_eq h.stored.kept_eq term codec
  rw [h.stored.terms, FieldScript.kept, Terms.lookup_kept, h.taken.hasFreqs_eq] at hseek
  exact ⟨codec', hseek⟩

/-- **A term that no line names is not found.** -/
theorem absent (h : ReadBack segment sizes lists f x s r) (htells : l.Tells lines)
    (hf : f ∈ l.fields.values) (hnone : lines.ofTerm f.name term = []) (codec : LongsCodec) :
    ∃ codec', r.seek? term codec = .ok none codec' := by
  obtain ⟨codec', hseek⟩ := h.seek?_eq term codec
  have hget := htells.get?_term hf term
  rw [if_pos hnone, SortedMap.get?_eq_lookup] at hget
  rw [Taken.terms_eq, (lookup_of_kept h.taken.terms term).1 hget] at hseek
  exact ⟨codec', hseek⟩

/-- **A term that a line names is found**, with all its documents. -/
theorem present (h : ReadBack segment sizes lists f x s r) (htells : l.Tells lines)
    (hcount : lines.Countable) (hf : f ∈ l.fields.values)
    (hsize : ∀ docs ∈ f.terms.values, docs.size < 2 ^ 31)
    (hlong : (DocLists.stream segment lists).length < 2 ^ 64)
    (hsome : lines.ofTerm f.name term ≠ []) (codec : LongsCodec) :
    ∃ state codec', r.seek? term codec = .ok (some state) codec' ∧
      lines.Answers (DocLists.stream segment lists) r term state := by
  obtain ⟨codec', hseek⟩ := h.seek?_eq term codec
  have hget := htells.get?_term hf term
  rw [if_neg hsome] at hget
  have hlist := htells.toList_eq hf hget
  generalize DocFreqs.ofPostings (lines.ofTerm f.name term).postings = docs at hget hlist
  have hdocs := hsize docs (SortedMap.mem_values_iff.mpr ⟨term, hget⟩)
  obtain ⟨t, hkept, hlookup⟩ := (lookup_of_kept h.taken.terms term).2 docs
    (by rwa [SortedMap.get?_eq_lookup] at hget)
  rw [Taken.terms_eq, hlookup] at hseek
  refine ⟨_, codec', hseek, ?_⟩
  obtain ⟨before, after, -, hstate⟩ := hkept.placed
  obtain ⟨hdocFreq, htotalFreq⟩ := DocFreqs.normalized_state hdocs f.hasFreqs
    ((DocLists.header segment).length + before.length)
  rw [← hstate] at hdocFreq htotalFreq
  have hfreqs := htells.hasFreqs_eq hf
  have hlength : docs.size = (lines.docs f.name term).length := by
    rw [SortedMap.size, hlist, List.length_map]
  refine ⟨?_, ?_, ?_⟩
  · rw [h.name_eq, hdocFreq, hlength]
  · rw [h.name_eq, htotalFreq, Told.total, ← hfreqs, ← hlength]
    split
    next htrue =>
      rw [DocFreqs.total, SortedMap.values, hlist, List.map_map, List.map_map]
      refine congrArg List.sum (List.map_congr_left fun doc _ => ?_)
      exact UInt32.toNat_ofNat_of_lt' (hcount.freqs _ _ _ (hfreqs ▸ htrue))
    next => rfl
  · have hkeys : docs.keys = lines.docs f.name term := by
      rw [SortedMap.keys, hlist, List.map_map]
      exact List.map_id _
    obtain ⟨offset, hlongs, hread⟩ := hkept.readAt (show docs.size < 2 ^ 32 by omega)
      (fun htrue => by rw [hkeys]; exact hcount.gaps _ _ (hfreqs ▸ htrue)) hlong
    refine ⟨offset, ?_, ?_⟩
    · rw [← hlongs]
      cases f.hasFreqs <;> rfl
    · rw [h.name_eq, h.hasFreqs_eq, hread, hlist, Told.docFreqs, ← hfreqs, List.map_map]
      refine congrArg Except.ok (List.map_congr_left fun doc _ => ?_)
      cases f.hasFreqs <;> rfl

/-- **The documents of a field are counted.** -/
theorem docCount_eq (h : ReadBack segment sizes lists f x s r) (htells : l.Tells lines)
    (hf : f ∈ l.fields.values)
    (hfew : DocList.distinct (FieldStep.docs (fieldScript x).steps) < 2 ^ 32) :
    r.summary.docCount.toNat = (lines.fieldDocs f.name).length := by
  have hsame : DocList.distinct (FieldStep.docs (fieldScript x).steps)
      = (lines.fieldDocs f.name).length := by
    refine ((List.perm_ext_iff_of_nodup (nodup_eraseDups _) (nodup_eraseDups _)).mpr
      fun doc => ?_).length_eq
    rw [List.mem_eraseDups, h.taken.docs_eq]
    exact htells.mem_fieldDocs_iff hf
  rw [h.reads.summary, StoredField.summary]
  cases htree : s.tree with
  | none =>
    -- a field has terms, so it has an index
    obtain ⟨term, hterm⟩ := htells.exists_term hf
    have hget := htells.get?_term hf term
    rw [if_neg hterm, SortedMap.get?_eq_some_iff] at hget
    have hkeys := h.taken.keys_eq
    have hnil := h.reads.empty htree
    rw [h.stored.terms] at hnil
    rw [← Terms.keys_kept _ (fieldScript x).hasFreqs] at hkeys
    rw [show Terms.kept (fieldScript x).terms (fieldScript x).hasFreqs = [] from hnil] at hkeys
    have hmem : term ∈ f.terms.keys := List.mem_map_of_mem hget
    rw [← hkeys] at hmem
    cases hmem
  | some tree =>
    rw [← hsame, ← h.stored.docs]
    rw [← h.stored.docs] at hfew
    exact UInt32.toNat_ofNat_of_lt' hfew

end ReadBack

end Listing

/-! ## A segment is built and looked up -/

/-- A field that is found is one of the reader and has the name. -/
theorem Reader.field_ok {r : Reader} {name : String} {f : FieldReader}
    (h : r.field name = .ok f) : f ∈ r.fields ∧ f.info.name = name := by
  unfold field at h
  split at h <;> cases h
  next hfind => exact ⟨List.mem_of_find?_eq_some hfind, by simpa using List.find?_some hfind⟩

/-- A field is found just if one has the name. -/
theorem Reader.exists_field_iff {r : Reader} {name : String} :
    (∃ f, r.field name = .ok f) ↔ ∃ f ∈ r.fields, f.info.name = name := by
  constructor
  · rintro ⟨f, hf⟩
    exact ⟨f, field_ok hf⟩
  · rintro ⟨f, hf, hname⟩
    unfold field
    split
    next g _ => exact ⟨g, rfl⟩
    next hnone => exact absurd hname (by simpa using List.find?_eq_none.mp hnone f hf)

/-- The lists of a segment are loaded as they were written. -/
theorem DocLists.load_eq {fs : Files} {s : Segment} {dir : Path} {streams : Streams Bytes}
    {lists : Bytes} (h : fs.Holds s dir streams (stream s lists))
    (hsuffix : (Bytes.ofString s.suffix).length < 2 ^ 32) :
    load fs dir s = .ok (stream s lists) := by
  have hcheck := check_stream hsuffix lists (s.path dir Segment.postingsExtension).text
  unfold load
  simp only [h.reads, hcheck]

/-- **What a listing tells is looked up in the segment that is built for it.** A field can be read
if a line names it; a term is found in it if a line names both, with the number of its documents,
how often it occurs, and the place of its list, where all its documents are read in order; and the
field counts the documents of all its terms. The formats only have to hold the listing, as they do
whenever its text is short. -/
theorem Listing.build_look_up {data : Bytes} {l : Listing} (hparse : Listing.parse data = .ok l)
    (hcount : (Listing.told data).Countable) {segment : Segment} {sizes : BlockSizes}
    (hsizes : sizes.check = .ok ()) (hfits : l.Fits segment sizes) {fs : Files} {dir : Path}
    (hfiles : fs.Willing segment dir) (createdAt : UInt64) :
    ∃ report fs' r lists, l.build dir segment sizes createdAt fs = .ok report fs' ∧
      Reader.openIn fs' dir segment l.fieldInfos = .ok r ∧
      DocLists.load fs' dir segment = .ok lists ∧
      ∀ name,
        ((∃ f, r.field name = .ok f) ↔ (Listing.told data).ofField name ≠ []) ∧
        ∀ f, r.field name = .ok f →
          f.info.name = name ∧
          f.summary.docCount.toNat = ((Listing.told data).fieldDocs name).length ∧
          ∀ term codec, ∃ found codec', f.seek? term codec = .ok found codec' ∧
            match found with
            | none => (Listing.told data).ofTerm name term = []
            | some state => (Listing.told data).ofTerm name term ≠ [] ∧
              (Listing.told data).Answers lists f term state := by
  have htells := Listing.parse_merges hparse
  have hscript := hfits.fits_script hsizes (fun f hf docs hdocs => htells.toList_ne_nil hf hdocs)
    fun f hf hfreqs docs hdocs => htells.positive hcount hf hfreqs hdocs
  obtain ⟨streams, r, hstreams, hopen, hreaders⟩ := Listing.Fits.opens hscript
  obtain ⟨report, fs', hbuild, hholds⟩ := Listing.build_spec hfiles hsizes hstreams createdAt
  refine ⟨report, fs', r, _, hbuild, (hholds.opens _).trans hopen,
    DocLists.load_eq hholds hfits.suffix, fun name => ⟨?_, fun reader hreader => ?_⟩⟩
  · rw [Reader.exists_field_iff, ← htells.exists_field_iff]
    constructor
    · rintro ⟨reader, hmem, rfl⟩
      obtain ⟨f, hf, x, -, s, hback⟩ := hreaders.exists_left hmem
      exact ⟨f, hf, hback.name_eq.symm⟩
    · rintro ⟨f, hf, rfl⟩
      obtain ⟨reader, hmem, x, -, s, hback⟩ := hreaders.exists_right hf
      exact ⟨reader, hmem, hback.name_eq⟩
  · obtain ⟨hmem, rfl⟩ := Reader.field_ok hreader
    obtain ⟨f, hf, x, hx, s, hback⟩ := hreaders.exists_left hmem
    refine ⟨rfl, ?_, fun term codec => ?_⟩
    · rw [hback.name_eq]
      exact hback.docCount_eq htells hf (hfits.sums _ (List.mem_map_of_mem hx)).2
    · rw [hback.name_eq]
      by_cases hterm : (Listing.told data).ofTerm f.name term = []
      · obtain ⟨codec', hseek⟩ := hback.absent htells hf hterm codec
        exact ⟨none, codec', hseek, hterm⟩
      · obtain ⟨state, codec', hseek, hanswers⟩ := hback.present htells hcount hf (hfits.docs f hf)
          hfits.lists hterm codec
        exact ⟨some state, codec', hseek, hterm, hanswers⟩

namespace Listing

/-- A field with frequencies, one of whose terms is in two lines, and one without. -/
def sampleText : Bytes :=
  Bytes.ofString "# sample\nbody\tapple\t1:2,3\nbody\tbanana\t2\nid\t0001\t1\nbody\tapple\t5:4\r\n"

def sampleSegment : Segment := { name := "_0", id := default }

/-- The term that is in two lines has the documents of both. -/
theorem build_look_up_sample : ∃ l report fs' r lists f state codec' offset,
    parse sampleText = .ok l ∧ (told sampleText).Countable ∧ l.Fits sampleSegment {} ∧
      Files.Willing {} sampleSegment ⟨"out"⟩ ∧
      l.build ⟨"out"⟩ sampleSegment {} 0 {} = .ok report fs' ∧
      Reader.openIn fs' ⟨"out"⟩ sampleSegment l.fieldInfos = .ok r ∧
      DocLists.load fs' ⟨"out"⟩ sampleSegment = .ok lists ∧ r.field "body" = .ok f ∧
      f.seek? (Bytes.ofString "apple") {} = .ok (some state) codec' ∧
      state.docFreq.toNat = 3 ∧ state.totalFreq.toNat = 7 ∧ state.longs = [offset] ∧
      DocLists.readAt lists offset.toNat f.info.options.hasFreqs
        = .ok [(1, 2), (3, 1), (5, 4)] := by
  obtain ⟨l, hparse⟩ : ∃ l, parse sampleText = .ok l := by
    cases h : parse sampleText with
    | ok l => exact ⟨l, rfl⟩
    | error fault =>
      have hok : (parse sampleText).isOk = true := by decide +kernel
      rw [h] at hok
      cases hok
  have hcount : (told sampleText).Countable := by decide +kernel
  have hwilling : Files.Willing {} sampleSegment ⟨"out"⟩ := by decide +kernel
  have hfits : l.Fits sampleSegment {} :=
    fits_of_short hparse hcount rfl (by decide +kernel) (by decide +kernel)
  obtain ⟨report, fs', r, lists, hbuild, hopen, hload, hanswers⟩ :=
    build_look_up hparse hcount rfl hfits hwilling 0
  obtain ⟨hfield, hterms⟩ := hanswers "body"
  obtain ⟨f, hf⟩ := hfield.mpr (by decide +kernel)
  obtain ⟨hname, -, hseek⟩ := hterms f hf
  obtain ⟨found, codec', hfound, hstate⟩ := hseek (Bytes.ofString "apple") {}
  cases found with
  | none => exact absurd hstate (show (told sampleText).ofTerm "body" _ ≠ [] by decide +kernel)
  | some state =>
    obtain ⟨-, hdocFreq, htotalFreq, offset, hlongs, hread⟩ := hstate
    rw [hname] at hdocFreq htotalFreq hread
    refine ⟨l, report, fs', r, lists, f, state, codec', offset, hparse, hcount, hfits, hwilling,
      hbuild, hopen, hload, hf, hfound, ?_, ?_, hlongs, ?_⟩
    · rw [hdocFreq]
      decide +kernel
    · rw [htotalFreq]
      decide +kernel
    · rw [hread]
      exact congrArg Except.ok (by decide +kernel)

end Listing

end Lexicon
