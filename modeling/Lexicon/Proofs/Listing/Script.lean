import Lexicon.Proofs.Listing.Lists
import Lexicon.Proofs.Listing.Merging
import Lexicon.Proofs.Segment.Calls
import Lexicon.Proofs.Segment.Stored

/-!
# What is written for a listing

`Listing.script` is the run of the writer that builds the dictionary of a listing, field after field
in the order of their names. `Listing.Fits` is what the formats can hold.

> **`Listing.Fits.fits_script`** — a listing that fits is written by a run that keeps to its order.
-/

namespace Lexicon

/-! ## Fields as scripts -/

namespace FieldTerms

/-- What is done with the terms of a field: each is written, and its documents are noted. -/
def steps (terms : FieldTerms) : List FieldStep :=
  terms.flatMap fun t => [.write t.1 t.2.1, .record t.2.2]

theorem steps_cons (t : Bytes × TermState × DocList) (terms : FieldTerms) :
    steps (t :: terms) = .write t.1 t.2.1 :: .record t.2.2 :: terms.steps := rfl

/-- The terms of a script are those that it writes. -/
theorem terms_steps (terms : FieldTerms) :
    FieldStep.terms terms.steps = terms.map fun t => (t.1, t.2.1) := by
  induction terms with
  | nil => rfl
  | cons t terms ih =>
    rw [steps_cons, List.map_cons, ← ih]
    rfl

/-- The documents of a script are those that it notes. -/
theorem docs_steps (terms : FieldTerms) :
    FieldStep.docs terms.steps = terms.flatMap fun t => t.2.2 := by
  induction terms with
  | nil => rfl
  | cons t terms ih =>
    rw [steps_cons, List.flatMap_cons, ← ih]
    rfl

/-- Writing terms runs their steps. -/
theorem writeAll_eq {σ : Type} [Sink σ] (terms : FieldTerms) :
    ∀ f : FieldWriter, f.writeAll terms = (f.run terms.steps : Writer.Call σ FieldWriter) := by
  induction terms with
  | nil => exact fun f => rfl
  | cons t terms ih =>
    intro f
    rw [steps_cons, FieldWriter.writeAll, FieldWriter.run]
    congr 1
    funext f'
    rw [ih, FieldWriter.run]

end FieldTerms

namespace Listing

/-- What is done with a field: it is written whole. -/
def fieldScript (x : FieldInfo × FieldTerms) : FieldScript := { info := x.1, steps := x.2.steps }

/-- Writing fields runs their scripts. -/
theorem writeFields_eq {σ : Type} [Sink σ] (fields : List (FieldInfo × FieldTerms)) :
    writeFields fields = (Writer.runAll (fields.map fieldScript) : Writer.Call σ Unit) := by
  induction fields with
  | nil => rfl
  | cons x fields ih =>
    have hfield : (Writer.writeField x.1 x.2 >>= fun _ => pure () : Writer.Call σ Unit)
        = (fieldScript x).run := by
      unfold Writer.writeField FieldScript.run
      rw [bind_assoc]
      congr 1
      funext f
      rw [FieldTerms.writeAll_eq, bind_assoc]
      rfl
    rw [List.map_cons, Writer.runAll, ← hfield, ← ih]
    rfl

/-- The run of the writer that builds the dictionary. -/
def script (l : Listing) (segment : Segment) (sizes : BlockSizes) : SegmentScript :=
  { segment, sizes, fields := (l.encode segment).2.map fieldScript }

/-- What a dictionary takes in of a field, given the lists of the segment. -/
structure Taken (segment : Segment) (lists : Bytes) (f : FieldListing)
    (x : FieldInfo × FieldTerms) : Prop where
  name : x.1.name = f.name
  options : x.1.options = f.options
  terms : List.Forall₂ (DocLists.Kept f.hasFreqs (DocLists.header segment).length lists)
    f.terms.toList x.2

variable {l : Listing} {segment : Segment} {sizes : BlockSizes} {lists : Bytes} {f : FieldListing}
  {x : FieldInfo × FieldTerms}

/-- The infos are those of the fields, in order. -/
theorem fieldInfos_spec (l : Listing) : List.Forall₂
    (fun (f : FieldListing) (info : FieldInfo) => info.name = f.name ∧ info.options = f.options)
    l.fields.values l.fieldInfos := by
  rw [fieldInfos, List.forall₂_map_right_iff]
  generalize 0 = start
  induction l.fields.values generalizing start with
  | nil => exact .nil
  | cons f fields ih => exact .cons ⟨rfl, rfl⟩ (ih (start + 1))

/-- **Every field is taken in**, with the lists of its terms. -/
theorem encode_taken (l : Listing) (segment : Segment) :
    List.Forall₂ (Taken segment (l.encode segment).1) l.fields.values (l.encode segment).2 := by
  have hterms := DocLists.encodeFields_kept l.fields.values (DocLists.header segment).length
  exact (l.fieldInfos_spec.zip hterms).imp fun _ _ h => ⟨h.1.1, h.1.2, h.2⟩

/-- The infos of the script are those of the listing. -/
theorem infos_script (l : Listing) (segment : Segment) (sizes : BlockSizes) :
    (l.script segment sizes).infos = l.fieldInfos := by
  have hterms := DocLists.encodeFields_kept l.fields.values (DocLists.header segment).length
  rw [SegmentScript.infos, script, List.map_map]
  show List.map Prod.fst (l.fieldInfos.zip _) = _
  rw [List.map_fst_zip]
  rw [← l.fieldInfos_spec.length_eq, ← hterms.length_eq]

/-- The fields have increasing numbers, as far as there are so many. -/
theorem fieldInfos_increasing (h : l.fields.size < 2 ^ 32) :
    l.fieldInfos.Pairwise (·.number < ·.number) := by
  have hnumbers : ∀ (fields : List FieldListing) (start : Nat), start + fields.length ≤ 2 ^ 32 →
      (fields.zipIdx start).Pairwise fun p q => UInt32.ofNat p.2 < UInt32.ofNat q.2 := by
    intro fields
    induction fields with
    | nil => exact fun _ _ => .nil
    | cons f fields ih =>
      intro start hstart
      rw [List.length_cons] at hstart
      refine .cons (fun p hp => ?_) (ih (start + 1) (by omega))
      have hle := List.le_snd_of_mem_zipIdx hp
      have hlt := List.snd_lt_add_of_mem_zipIdx hp
      rw [UInt32.lt_iff_toNat_lt, UInt32.toNat_ofNat_of_lt' (show start < 2 ^ 32 by omega),
        UInt32.toNat_ofNat_of_lt' (show p.2 < 2 ^ 32 by omega)]
      omega
  rw [fieldInfos, List.pairwise_map]
  refine hnumbers l.fields.values 0 ?_
  rw [SortedMap.values, List.length_map, Nat.zero_add]
  exact Nat.le_of_lt h

/-! ## What a field's script writes -/

/-- The options of a field say whether it has frequencies. -/
theorem hasFreqs_options (f : FieldListing) : f.options.hasFreqs = f.hasFreqs := by
  rw [FieldListing.options]
  cases f.hasFreqs <;> rfl

namespace Taken

/-- The script has frequencies if the field has. -/
theorem hasFreqs_eq (h : Taken segment lists f x) : (fieldScript x).hasFreqs = f.hasFreqs := by
  rw [FieldScript.hasFreqs, fieldScript, h.options, hasFreqs_options]

theorem terms_eq (x : FieldInfo × FieldTerms) :
    (fieldScript x).terms = x.2.map fun t => (t.1, t.2.1) := FieldTerms.terms_steps x.2

/-- The script writes the terms of the field. -/
theorem keys_eq (h : Taken segment lists f x) : (fieldScript x).terms.keys = f.terms.keys := by
  have hkeys := (h.terms.imp fun (p : Bytes × DocFreqs) kept hkept => hkept.term.symm).map_eq
  rw [terms_eq, Terms.keys, List.map_map]
  exact hkeys.symm

/-- The documents that are noted are those of all terms. -/
theorem docs_eq (h : Taken segment lists f x) :
    FieldStep.docs (fieldScript x).steps = f.terms.values.flatMap SortedMap.keys := by
  have hdocs := (h.terms.imp fun (p : Bytes × DocFreqs) kept hkept => hkept.docs.symm).map_eq
  rw [fieldScript, FieldTerms.docs_steps, SortedMap.values, List.flatMap_map, List.flatMap_def,
    List.flatMap_def, hdocs]

/-- The states of all terms are accepted. -/
theorem accepted (h : Taken segment lists f x) (hheld : ∀ docs ∈ f.terms.values, docs.toList ≠ [])
    (hsize : ∀ docs ∈ f.terms.values, docs.size < 2 ^ 31)
    (hpos : f.hasFreqs = true → ∀ docs ∈ f.terms.values, ∀ freq ∈ docs.values, freq ≠ 0) :
    FieldWriter.Accepted (fieldScript x).hasFreqs (fieldScript x).terms := by
  intro t ht
  rw [terms_eq] at ht
  obtain ⟨kept, hkept, rfl⟩ := List.mem_map.mp ht
  obtain ⟨p, hp, hof⟩ := h.terms.exists_left hkept
  obtain ⟨before, after, -, hstate⟩ := hof.placed
  have hdocs : p.2 ∈ f.terms.values := List.mem_map_of_mem hp
  rw [h.hasFreqs_eq]
  show kept.2.1.check f.hasFreqs = .ok ()
  rw [hstate]
  exact DocFreqs.check_state _ (hheld _ hdocs) (hsize _ hdocs) fun hfreqs => hpos hfreqs _ hdocs

/-- The documents of a term are counted. -/
theorem docFreqs_eq (h : Taken segment lists f x)
    (hsize : ∀ docs ∈ f.terms.values, docs.size < 2 ^ 31) :
    Terms.docFreqs (fieldScript x).terms = (f.terms.toList.map fun p => p.2.size).sum := by
  have hcounts : f.terms.toList.map (fun p => p.2.size) = x.2.map fun t => t.2.1.docFreq.toNat := by
    refine (h.terms.imp_of_mem fun p hp kept hkept => ?_).map_eq
    obtain ⟨before, after, -, hstate⟩ := hkept.placed
    rw [hstate, DocFreqs.docFreq_state (hsize p.2 (List.mem_map_of_mem hp))]
  rw [terms_eq, Terms.docFreqs, List.map_map, hcounts]
  rfl

/-- A field has no more documents than its terms have, each counted for itself. -/
theorem distinct_le (h : Taken segment lists f x) :
    DocList.distinct (FieldStep.docs (fieldScript x).steps)
      ≤ (f.terms.toList.map fun p => p.2.size).sum := by
  have hlength : (FieldStep.docs (fieldScript x).steps).length
      = (f.terms.toList.map fun p => p.2.size).sum := by
    rw [h.docs_eq, List.length_flatMap, SortedMap.values, List.map_map]
    refine congrArg List.sum (List.map_congr_left fun p _ => ?_)
    exact List.length_map ..
  rw [← hlength]
  exact (List.subperm_of_subset (nodup_eraseDups _) fun d hd => List.mem_eraseDups.mp hd).length_le

end Taken

/-- A script of the segment was made from a field of the listing. -/
theorem exists_taken {s : FieldScript} (hs : s ∈ (l.script segment sizes).fields) :
    ∃ f ∈ l.fields.values, ∃ x, s = fieldScript x ∧ Taken segment (l.encode segment).1 f x := by
  obtain ⟨x, hx, rfl⟩ := List.mem_map.mp hs
  obtain ⟨f, hf, hof⟩ := (l.encode_taken segment).exists_left hx
  exact ⟨f, hf, x, rfl, hof⟩

/-- All fields are accepted, if their terms have documents, and it is known how often they occur in
them where it has to be. -/
theorem acceptable_script (hheld : ∀ f ∈ l.fields.values, ∀ docs ∈ f.terms.values, docs.toList ≠ [])
    (hpos : ∀ f ∈ l.fields.values, f.hasFreqs = true →
      ∀ docs ∈ f.terms.values, ∀ freq ∈ docs.values, freq ≠ 0)
    (hdocs : ∀ f ∈ l.fields.values, ∀ docs ∈ f.terms.values, docs.size < 2 ^ 31)
    (hroom : ∀ s ∈ (l.script segment sizes).fields, Room s.terms) :
    ∀ s ∈ (l.script segment sizes).fields, s.Acceptable := by
  intro s hs
  obtain ⟨f, hf, x, rfl, hof⟩ := exists_taken hs
  refine ⟨?_, hof.accepted (hheld f hf) (hdocs f hf) (hpos f hf), hroom _ hs⟩
  rw [hof.keys_eq]
  exact f.terms.sorted_keys

/-- A script that has written a field has all of it. -/
theorem finished_script (l : Listing) (segment : Segment) (sizes : BlockSizes) :
    (l.script segment sizes).finished = (l.script segment sizes).fields := by
  refine List.filter_eq_self.mpr fun s hs => ?_
  obtain ⟨x, -, rfl⟩ := List.mem_map.mp hs
  rfl

/-- The listing is one that the formats can hold. -/
structure Fits (l : Listing) (segment : Segment) (sizes : BlockSizes) : Prop where
  suffix : (Bytes.ofString segment.suffix).length < 2 ^ 32
  fields : l.fields.size < 2 ^ 32
  /-- The number of documents of a term is stored in 31 bits. -/
  docs : ∀ f ∈ l.fields.values, ∀ docs ∈ f.terms.values, docs.size < 2 ^ 31
  /-- The lists can be addressed. -/
  lists : (DocLists.stream segment (l.encode segment).1).length < 2 ^ 64
  /-- The indexes can be addressed. -/
  room : ∀ s ∈ (l.script segment sizes).fields, Room s.terms
  /-- No block is too large for its format. -/
  small : ∀ s ∈ (l.script segment sizes).fields, s.kept.Small sizes
  /-- The sums over a field are stored in 64 bits, and the number of its documents in 32. -/
  sums : ∀ s ∈ (l.script segment sizes).fields, s.kept.totalFreqs < 2 ^ 64 ∧
    DocList.distinct (FieldStep.docs s.steps) < 2 ^ 32
  /-- An offset in the stream of blocks is stored together with two flags. -/
  addressable : ∀ w, (l.script segment sizes).written = .ok w →
    w.terms.position + Frame.footerLength ≤ 2 ^ 62 ∧ w.index.position < 2 ^ 63

/-- **A listing that fits is written by a run that keeps to its order**, if all its terms have
documents, and how often they occur in them is known where it has to be. -/
theorem Fits.fits_script (h : l.Fits segment sizes) (hsizes : sizes.check = .ok ())
    (hheld : ∀ f ∈ l.fields.values, ∀ docs ∈ f.terms.values, docs.toList ≠ [])
    (hpos : ∀ f ∈ l.fields.values, f.hasFreqs = true →
      ∀ docs ∈ f.terms.values, ∀ freq ∈ docs.values, freq ≠ 0) :
    (l.script segment sizes).Fits := by
  refine ⟨hsizes, ?_, ?_, acceptable_script hheld hpos h.docs h.room, ?_, ?_, h.suffix,
    h.addressable⟩
  · rw [infos_script]
    exact fieldInfos_increasing h.fields
  · have hlength := (l.encode_taken segment).length_eq
    rw [script, List.length_map, ← hlength, SortedMap.values, List.length_map]
    exact h.fields
  · rw [finished_script]
    exact h.small
  · rw [finished_script]
    intro s hs
    refine ⟨(h.sums s hs).1, fun _ => ?_⟩
    obtain ⟨f, hf, x, rfl, hof⟩ := exists_taken hs
    rw [hof.docFreqs_eq (h.docs f hf)]
    exact hof.distinct_le

end Listing

end Lexicon
