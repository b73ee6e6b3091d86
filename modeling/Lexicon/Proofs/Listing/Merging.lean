import Lexicon.Listing
import Lexicon.Proofs.Listing.Grammar
import Lexicon.Proofs.SortedMap
import Mathlib.Data.List.Induction
import Mathlib.Data.List.Sort

/-!
# Listings add up

`Told` are the lines of a text that say something, and what they say of fields, terms and documents
is counted from the lines themselves: `Told.docs` are the documents that any posting of a term
names, `Told.occurrences` is the sum over the postings that name a document.

> **`Listing.Tells.add`** — a listing to which a line is added tells one line more;
> **`Listing.Tells.get?_term`**, **`DocFreqs.toList_ofPostings`** — and it has exactly the terms,
> documents and frequencies that its lines tell.
-/

namespace Lexicon

/-! ## What lines say -/

/-- How often postings tell of a document: one without a number counts one. -/
def Posting.total (ps : List Posting) (doc : UInt32) : Nat :=
  ((ps.filter (·.doc = doc)).map fun p => (p.freq.getD 1).toNat).sum

/-- The total of two rows of postings is the sum of theirs. -/
theorem Posting.total_append (ps ps' : List Posting) (doc : UInt32) :
    total (ps ++ ps') doc = total ps doc + total ps' doc := by
  rw [total, List.filter_append, List.map_append, List.sum_append]
  rfl

theorem Posting.total_self (p : Posting) : total [p] p.doc = (p.freq.getD 1).toNat := by
  simp [total]

/-- The lines of a listing that say something. -/
abbrev Told := List ListingLine

namespace Told

/-- The lines that name a field. -/
def ofField (lines : Told) (field : String) : Told := lines.filter (·.field = field)

/-- The lines that name a term of a field. -/
def ofTerm (lines : Told) (field : String) (term : Bytes) : Told :=
  (lines.ofField field).filter (·.term = term)

def postings (lines : Told) : List Posting := lines.flatMap (·.postings)

/-- Whether any posting of the field tells how often. -/
def hasFreqs (lines : Told) (field : String) : Bool :=
  (lines.ofField field).postings.any (·.freq.isSome)

/-- The documents that hold a term, in increasing order. -/
def docs (lines : Told) (field : String) (term : Bytes) : List UInt32 :=
  ((lines.ofTerm field term).postings.map (·.doc)).eraseDups.insertionSort (· ≤ ·)

/-- How often a term occurs in a document: a posting without a number counts one. -/
def occurrences (lines : Told) (field : String) (term : Bytes) (doc : UInt32) : Nat :=
  (((lines.ofTerm field term).postings.filter (·.doc = doc)).map
    fun p => (p.freq.getD 1).toNat).sum

/-- The documents of a field, each once. -/
def fieldDocs (lines : Told) (field : String) : List UInt32 :=
  ((lines.ofField field).postings.map (·.doc)).eraseDups

variable {lines : Told} {line : ListingLine} {field : String} {term : Bytes}

/-- The lines of a field are those that name it. -/
theorem mem_ofField : line ∈ lines.ofField field ↔ line ∈ lines ∧ line.field = field := by
  rw [ofField, List.mem_filter, decide_eq_true_iff]

/-- The lines of a term are those that name it and its field. -/
theorem mem_ofTerm : line ∈ lines.ofTerm field term ↔
    line ∈ lines ∧ line.field = field ∧ line.term = term := by
  rw [ofTerm, List.mem_filter, mem_ofField, decide_eq_true_iff, and_assoc]

/-- A term occurs in two parts of a text as often as in both together. -/
theorem occurrences_append (lines more : Told) (field : String) (term : Bytes) (doc : UInt32) :
    Told.occurrences (lines ++ more) field term doc =
      lines.occurrences field term doc + more.occurrences field term doc := by
  have hterm : Told.ofTerm (lines ++ more) field term
      = lines.ofTerm field term ++ more.ofTerm field term := by
    rw [ofTerm, ofField, List.filter_append, List.filter_append]
    rfl
  rw [occurrences, hterm, postings, List.flatMap_append]
  exact Posting.total_append ..

/-- A line tells of its own term only. -/
theorem occurrences_singleton (line : ListingLine) (field : String) (term : Bytes) (doc : UInt32) :
    Told.occurrences [line] field term doc =
      if line.field = field ∧ line.term = term then Posting.total line.postings doc else 0 := by
  have hterm : Told.ofTerm [line] field term
      = if line.field = field ∧ line.term = term then [line] else [] := by
    by_cases hfield : line.field = field
    · by_cases hterm : line.term = term
      · simp [ofTerm, ofField, hfield, hterm]
      · simp [ofTerm, ofField, hfield, hterm]
    · simp [ofTerm, ofField, hfield]
  rw [occurrences, hterm]
  split
  next =>
    rw [postings, List.flatMap_singleton]
    rfl
  next => rfl

end Told

/-- What the lines of a text say, as far as they can be read. -/
def Listing.told (data : Bytes) : Told :=
  (((splitAt 0x0A data).map withoutReturn).filter speaks).filterMap
    fun line => (ListingLine.parse line).toOption

/-! ## Lines -/

/-- A line that was read keeps the bytes of its field, and its frequencies are positive. -/
structure ListingLine.Sound (line : ListingLine) : Prop where
  key : line.fieldKey = Bytes.ofString line.field
  positive : ∀ p ∈ line.postings, p.freq ≠ some 0

/-- A line that is read has a field, whose key is its name. -/
theorem ListingLine.sound_of_parse {bytes : Bytes} {line : ListingLine}
    (h : parse bytes = .ok line) : line.Sound := by
  obtain ⟨-, -, -, hpostings⟩ := parse_eq_ok_iff.mp h
  refine ⟨rfl, fun p hp => ?_⟩
  obtain ⟨cs, -, hspells⟩ := hpostings.exists_left hp
  exact hspells.freq_ne_zero

/-! ## Rows of documents -/

/-- Nothing is left twice where what comes again was left out. -/
theorem nodup_eraseDups {α : Type} [BEq α] [LawfulBEq α] (l : List α) : l.eraseDups.Nodup := by
  induction h : l.length using Nat.strongRecOn generalizing l with
  | ind n ih =>
    cases l with
    | nil => exact .nil
    | cons a l =>
      rw [List.eraseDups_cons]
      have hlength := List.length_filter_le (fun b => !b == a) l
      rw [List.length_cons] at h
      refine List.nodup_cons.mpr ⟨fun hmem => ?_, ih _ (by omega) _ rfl⟩
      have hne := (List.mem_filter.mp (List.mem_eraseDups.mp hmem)).2
      simp at hne

/-- A row in increasing order is that of its distinct elements. -/
theorem eq_sort_eraseDups {l row : List UInt32} (hrow : row.Pairwise (· < ·))
    (hmem : ∀ d, d ∈ row ↔ d ∈ l) : row = l.eraseDups.insertionSort (· ≤ ·) := by
  have hperm := List.perm_insertionSort (· ≤ ·) l.eraseDups
  have hsorted := List.pairwise_insertionSort (· ≤ ·) l.eraseDups
  have hle : row.Pairwise (· ≤ ·) := hrow.imp fun h => UInt32.le_of_lt h
  refine List.Perm.eq_of_pairwise (fun a b _ _ hab hba => UInt32.le_antisymm hab hba) hle hsorted ?_
  refine (List.perm_ext_iff_of_nodup (hrow.imp fun h => UInt32.ne_of_lt h)
    (hperm.nodup_iff.mpr (nodup_eraseDups l))).mpr fun d => ?_
  rw [hmem, hperm.mem_iff, List.mem_eraseDups]

/-! ## What is merged -/

namespace DocFreqs

/-- How often a document has been counted. -/
def count (docs : DocFreqs) (doc : UInt32) : Nat := ((docs.get? doc).getD 0).toNat

/-- A posting is added unless its document then counts too many. -/
theorem add_eq (docs : DocFreqs) (p : Posting) : docs.add p =
    if docs.count p.doc + (p.freq.getD 1).toNat < 2 ^ 32 then .ok (docs.put p)
    else .error (.overflow p.doc) := rfl

/-- A posting that is counted counts for its document only. -/
theorem count_put {docs : DocFreqs} {p : Posting}
    (h : docs.count p.doc + (p.freq.getD 1).toNat < 2 ^ 32) (doc : UInt32) :
    (docs.put p).count doc = docs.count doc + Posting.total [p] doc := by
  unfold count at h
  unfold count put
  rw [SortedMap.get?_upsert]
  by_cases hdoc : doc = p.doc
  · subst hdoc
    rw [if_pos rfl, Option.getD_some, UInt32.toNat_add, Nat.mod_eq_of_lt h]
    simp [Posting.total]
  · have hne : ¬ p.doc = doc := fun heq => hdoc heq.symm
    rw [if_neg hdoc]
    simp [Posting.total, hne]

/-- **Postings are added just if no document is counted beyond 32 bits.** -/
theorem addAll_eq_ok_iff {ps : List Posting} : ∀ {docs docs' : DocFreqs},
    ps.foldlM add docs = .ok docs' ↔
      docs' = ps.foldl put docs ∧ ∀ doc, docs.count doc + Posting.total ps doc < 2 ^ 32 := by
  induction ps with
  | nil =>
    intro docs docs'
    have hsmall : ∀ doc, docs.count doc + Posting.total [] doc < 2 ^ 32 :=
      fun doc => UInt32.toNat_lt _
    rw [and_iff_left hsmall]
    exact ⟨fun h => (Except.ok.inj h).symm, fun h => congrArg Except.ok h.symm⟩
  | cons p ps ih =>
    intro docs docs'
    have hcons : ∀ doc,
        Posting.total (p :: ps) doc = Posting.total [p] doc + Posting.total ps doc :=
      Posting.total_append [p] ps
    rw [List.foldlM_cons, add_eq]
    by_cases hfits : docs.count p.doc + (p.freq.getD 1).toNat < 2 ^ 32
    · have hsum : ∀ doc, (docs.put p).count doc + Posting.total ps doc
          = docs.count doc + Posting.total (p :: ps) doc := by
        intro doc
        rw [count_put hfits, hcons, Nat.add_assoc]
      rw [if_pos hfits]
      refine ih.trans ?_
      simp only [hsum]
      rfl
    · rw [if_neg hfits]
      refine iff_of_false nofun fun h => hfits ?_
      have hall := h.2 p.doc
      rw [hcons, Posting.total_self] at hall
      omega

/-- Postings that cannot be added are too many of a document. -/
theorem exists_overflow {ps : List Posting} : ∀ {docs : DocFreqs} {fault : LineFault},
    ps.foldlM add docs = .error fault → ∃ doc, fault = .overflow doc := by
  induction ps with
  | nil => exact nofun
  | cons p ps ih =>
    intro docs fault h
    rw [List.foldlM_cons, add_eq] at h
    split at h
    next => exact ih h
    next =>
      cases h
      exact ⟨p.doc, rfl⟩

/-- The documents that postings name. -/
def ofPostings (ps : List Posting) : DocFreqs := ps.foldl put {}

/-- Frequencies are added up in 32 bits. -/
theorem foldl_freq (ps : List Posting) (n : Nat) :
    ps.foldl (fun (sum : UInt32) p => sum + p.freq.getD 1) (UInt32.ofNat n)
      = UInt32.ofNat (n + (ps.map fun p => (p.freq.getD 1).toNat).sum) := by
  induction ps generalizing n with
  | nil => rfl
  | cons p ps ih =>
    have hone : p.freq.getD 1 = UInt32.ofNat (p.freq.getD 1).toNat := UInt32.ofNat_toNat.symm
    rw [List.foldl_cons, List.map_cons, List.sum_cons, ← Nat.add_assoc, ← ih, UInt32.ofNat_add,
      ← hone]

/-- A document is told with the sum of its frequencies, if one names it. -/
theorem get?_ofPostings (ps : List Posting) (doc : UInt32) : (ofPostings ps).get? doc =
    if ps.filter (·.doc = doc) = [] then none
    else some (.ofNat ((ps.filter (·.doc = doc)).map fun p => (p.freq.getD 1).toNat).sum) := by
  have hfold := SortedMap.get?_foldl_upsert (fun p : Posting => p.doc)
    (fun p before => before.getD 0 + p.freq.getD 1) ps ({} : DocFreqs) doc
  rw [ofPostings]
  refine hfold.trans ?_
  by_cases hnone : ps.filter (·.doc = doc) = []
  · rw [if_pos hnone, hnone]
    rfl
  · rw [if_neg hnone]
    refine
      (foldl_some_getD (fun (sum : UInt32) (p : Posting) => sum + p.freq.getD 1) 0 hnone).trans ?_
    have hsum := foldl_freq (ps.filter (·.doc = doc)) 0
    rw [Nat.zero_add] at hsum
    exact congrArg some hsum

/-- A document counts its total, as far as 32 bits hold it. -/
theorem count_ofPostings (ps : List Posting) (doc : UInt32) :
    (ofPostings ps).count doc = Posting.total ps doc % 2 ^ 32 := by
  rw [count, get?_ofPostings]
  split
  next hnone =>
    rw [Posting.total, hnone]
    rfl
  next => exact UInt32.toNat_ofNat'

/-- The documents of a term are those that its postings name. -/
theorem mem_keys_ofPostings {ps : List Posting} {doc : UInt32} :
    doc ∈ (ofPostings ps).keys ↔ doc ∈ ps.map (·.doc) := by
  rw [SortedMap.mem_keys_iff, List.mem_map]
  constructor
  · rintro ⟨n, hget⟩
    rw [get?_ofPostings] at hget
    split at hget
    next => cases hget
    next hsome =>
      obtain ⟨p, hp⟩ := List.exists_mem_of_ne_nil _ hsome
      exact ⟨p, List.mem_of_mem_filter hp, of_decide_eq_true (List.mem_filter.mp hp).2⟩
  · rintro ⟨p, hp, rfl⟩
    have hmem : p ∈ ps.filter (·.doc = p.doc) := List.mem_filter.mpr ⟨hp, by simp⟩
    exact ⟨_, by rw [get?_ofPostings, if_neg (List.ne_nil_of_mem hmem)]⟩

/-- **Postings come to the documents that they name**, each with the sum of what is told of it. -/
theorem toList_ofPostings (ps : List Posting) : (ofPostings ps).toList =
    ((ps.map (·.doc)).eraseDups.insertionSort (· ≤ ·)).map fun doc =>
      (doc, UInt32.ofNat ((ps.filter (·.doc = doc)).map fun p => (p.freq.getD 1).toNat).sum) := by
  rw [← eq_sort_eraseDups (SortedMap.sorted_keys _) fun doc => mem_keys_ofPostings,
    SortedMap.keys, List.map_map]
  refine (List.map_id _).symm.trans (List.map_congr_left fun p hp => ?_)
  have hget := SortedMap.get?_eq_some_iff.mpr (show (p.1, p.2) ∈ (ofPostings ps).toList from hp)
  rw [get?_ofPostings] at hget
  split at hget
  next => cases hget
  next => exact Prod.ext rfl (Option.some_inj.mp hget).symm

end DocFreqs

namespace FieldListing

/-- A field with more postings of a term. -/
def put (f : FieldListing) (term : Bytes) (postings : List Posting) : FieldListing :=
  f.update term postings (postings.foldl DocFreqs.put ((f.terms.get? term).getD {}))

/-- What is put into a field is put into its term. -/
theorem terms_put (f : FieldListing) (term : Bytes) (postings : List Posting) :
    (f.put term postings).terms =
      f.terms.upsert term fun before => postings.foldl DocFreqs.put (before.getD {}) :=
  SortedMap.upsert_congr rfl

/-- Postings of a term are added just if no document is counted beyond 32 bits. -/
theorem add_eq_ok_iff {f f' : FieldListing} {term : Bytes} {ps : List Posting} :
    f.add term ps = .ok f' ↔ f' = f.put term ps ∧
      ∀ doc, ((f.terms.get? term).getD {}).count doc + Posting.total ps doc < 2 ^ 32 := by
  unfold add
  constructor
  · intro h
    obtain ⟨docs, hdocs, hf⟩ := of_bind_eq_ok h
    obtain ⟨rfl, hfits⟩ := DocFreqs.addAll_eq_ok_iff.mp hdocs
    exact ⟨(Except.ok.inj hf).symm, hfits⟩
  · intro h
    obtain ⟨rfl, hfits⟩ := h
    rw [DocFreqs.addAll_eq_ok_iff.mpr ⟨rfl, hfits⟩]
    rfl

/-- What lines say of the field that they name. -/
def ofLines (name : String) (lines : Told) : FieldListing :=
  lines.foldl (fun f line => f.put line.term line.postings) { name }

theorem name_ofLines (name : String) (lines : Told) : (ofLines name lines).name = name := by
  induction lines using List.reverseRecOn with
  | nil => rfl
  | append_singleton lines line ih =>
    rw [ofLines, List.foldl_concat]
    exact ih

/-- A field has frequencies if one of its postings has. -/
theorem hasFreqs_ofLines (name : String) (lines : Told) :
    (ofLines name lines).hasFreqs = lines.postings.any (·.freq.isSome) := by
  induction lines using List.reverseRecOn with
  | nil => rfl
  | append_singleton lines line ih =>
    rw [ofLines, List.foldl_concat, Told.postings, List.flatMap_append, List.any_append,
      List.flatMap_singleton]
    show ((ofLines name lines).hasFreqs || _) = _
    rw [ih]
    rfl

/-- A term is there if a line names it, with the postings of such lines. -/
theorem get?_ofLines (name : String) (lines : Told) (term : Bytes) :
    (ofLines name lines).terms.get? term =
      if lines.filter (·.term = term) = [] then none
      else some (.ofPostings (Told.postings (lines.filter (·.term = term)))) := by
  have hterms : (ofLines name lines).terms = lines.foldl (fun m line => m.upsert line.term
      fun before => line.postings.foldl DocFreqs.put (before.getD {})) {} :=
    (List.foldl_hom FieldListing.terms fun f line => (f.terms_put _ _).symm).symm
  rw [hterms]
  refine (SortedMap.get?_foldl_upsert (fun line : ListingLine => line.term)
    (fun line before => line.postings.foldl DocFreqs.put (before.getD {})) lines {} term).trans ?_
  by_cases hnone : lines.filter (·.term = term) = []
  · rw [if_pos hnone, hnone]
    rfl
  · rw [if_neg hnone]
    refine (foldl_some_getD (fun (docs : DocFreqs) (line : ListingLine) =>
      line.postings.foldl DocFreqs.put docs) {} hnone).trans ?_
    rw [DocFreqs.ofPostings, Told.postings, List.foldl_flatMap]

end FieldListing

/-! ## The listing of a text -/

namespace Listing

variable {l l' : Listing} {lines : Told} {name : String} {line : ListingLine}

/-- What a line makes of what was said of its field. -/
def merge (line : ListingLine) (before : Option FieldListing) : FieldListing :=
  (before.getD { name := line.field }).put line.term line.postings

/-- A listing with what one more line says. -/
def put (l : Listing) (line : ListingLine) : Listing :=
  l.update line.fieldKey (merge line (l.fields.get? line.fieldKey))

/-- A line changes the field that it names only. -/
theorem fields_put (l : Listing) (line : ListingLine) :
    (l.put line).fields = l.fields.upsert line.fieldKey (merge line) := SortedMap.upsert_congr rfl

/-- The documents of a term. -/
def docs (l : Listing) (key term : Bytes) : DocFreqs :=
  ((l.fields.get? key).bind (·.terms.get? term)).getD {}

theorem docs_getD (l : Listing) (line : ListingLine) :
    ((((l.fields.get? line.fieldKey).getD { name := line.field }).terms.get? line.term).getD {}) =
      l.docs line.fieldKey line.term := by
  unfold docs
  cases l.fields.get? line.fieldKey with
  | none => rfl
  | some f => rfl

/-- The postings of a line are added just if no document of its term is counted beyond 32 bits. -/
theorem addPostings_eq_ok_iff : l.addPostings line = .ok l' ↔ l' = l.put line ∧ ∀ doc,
    (l.docs line.fieldKey line.term).count doc + Posting.total line.postings doc < 2 ^ 32 := by
  rw [← docs_getD]
  unfold addPostings
  constructor
  · intro h
    obtain ⟨f, hadd, hl⟩ := of_bind_eq_ok h
    obtain ⟨rfl, hfits⟩ := FieldListing.add_eq_ok_iff.mp hadd
    exact ⟨(Except.ok.inj hl).symm, hfits⟩
  · intro h
    obtain ⟨rfl, hfits⟩ := h
    dsimp only
    rw [FieldListing.add_eq_ok_iff.mpr ⟨rfl, hfits⟩]
    rfl

/-- Postings that cannot be added are too many of a document. -/
theorem exists_overflow {fault : LineFault} (h : l.addPostings line = .error fault) :
    ∃ doc, fault = .overflow doc := by
  unfold addPostings FieldListing.add at h
  dsimp only at h
  cases hadd : line.postings.foldlM DocFreqs.add
      ((((l.fields.get? line.fieldKey).getD { name := line.field }).terms.get?
        line.term).getD {}) with
  | ok docs =>
    rw [hadd] at h
    cases h
  | error fault' =>
    rw [hadd] at h
    cases h
    exact DocFreqs.exists_overflow hadd

/-- A line that can be read is added. -/
theorem addLine_of_parse {bytes : Bytes} (hspeaks : speaks bytes = true)
    (hparse : ListingLine.parse bytes = .ok line) : l.addLine bytes = l.add line := by
  unfold addLine
  rw [if_pos hspeaks, hparse]

/-- Of a line that cannot be read, what it says up to there is added first. -/
theorem addLine_of_unread {bytes : Bytes} {unread : UnreadLine} (hspeaks : speaks bytes = true)
    (hparse : ListingLine.parse bytes = .error unread) : l.addLine bytes =
      (unread.said.elim (.ok l) l.addPostings >>= fun _ => .error unread.fault) := by
  unfold addLine
  rw [if_pos hspeaks, hparse]
  rfl

/-- A line that says something is added just if it is read and what it says is added. -/
theorem addLine_eq_ok_iff {bytes : Bytes} (hspeaks : speaks bytes = true) :
    l.addLine bytes = .ok l' ↔
      ∃ line, ListingLine.parse bytes = .ok line ∧ l.add line = .ok l' := by
  cases hparse : ListingLine.parse bytes with
  | ok line =>
    rw [addLine_of_parse hspeaks hparse]
    constructor
    · exact fun h => ⟨line, rfl, h⟩
    · intro h
      obtain ⟨line', hline, h⟩ := h
      cases hline
      exact h
  | error unread =>
    rw [addLine_of_unread hspeaks hparse]
    refine iff_of_false (fun h => ?_) nofun
    obtain ⟨_, -, hthrow⟩ := of_bind_eq_ok h
    cases hthrow

/-- The listing has what lines say that were read: every one of them names a term that has
documents, and no document was counted beyond 32 bits. -/
structure Tells (l : Listing) (lines : Told) : Prop where
  fields : l.fields = lines.foldl (fun m line => m.upsert line.fieldKey (merge line)) {}
  count : l.lines = lines.length
  sound : ∀ line ∈ lines, line.Sound
  held : ∀ line ∈ lines, (lines.ofTerm line.field line.term).postings ≠ []
  counted : ∀ name term doc, lines.occurrences name term doc < 2 ^ 32

/-- A new listing has been told nothing. -/
theorem tells_nothing : Tells {} [] :=
  ⟨rfl, rfl, by simp, by simp, fun _ _ _ => Nat.two_pow_pos 32⟩

/-- What is under a key is what the lines of the key came to, one after the other. -/
theorem Tells.get?_eq (h : l.Tells lines) (key : Bytes) :
    l.fields.get? key = (lines.filter (·.fieldKey = key)).foldl
      (fun before line => some (merge line before)) none := by
  rw [h.fields]
  exact SortedMap.get?_foldl_upsert ..

/-- A field is there if a line names it, with what such lines say. -/
theorem Tells.get?_ofString (h : l.Tells lines) (name : String) :
    l.fields.get? (Bytes.ofString name) =
      if lines.ofField name = [] then none else some (.ofLines name (lines.ofField name)) := by
  have hkeys : lines.filter (·.fieldKey = Bytes.ofString name) = lines.ofField name := by
    refine List.filter_congr fun line hline => ?_
    rw [(h.sound line hline).key]
    exact decide_eq_decide.mpr ⟨Bytes.ofString_inj, congrArg _⟩
  rw [h.get?_eq, hkeys]
  by_cases hnone : lines.ofField name = []
  · rw [if_pos hnone, hnone]
    rfl
  · rw [if_neg hnone]
    -- all these lines name the field, so whichever is first gives it its name
    refine (List.foldl_ext _ (fun before line =>
      some ((before.getD ({ name } : FieldListing)).put line.term line.postings)) none
      fun before line hline => ?_).trans (foldl_some_getD
        (fun (f : FieldListing) (line : ListingLine) => f.put line.term line.postings) { name }
        hnone)
    rw [merge, (Told.mem_ofField.mp hline).2]

/-- A field of the listing is one that a line names. -/
theorem Tells.exists_name (h : l.Tells lines) {key : Bytes} {f : FieldListing}
    (hf : l.fields.get? key = some f) : key = Bytes.ofString f.name ∧ lines.ofField f.name ≠ [] ∧
      f = .ofLines f.name (lines.ofField f.name) := by
  have hline : ∃ line ∈ lines, line.fieldKey = key := by
    rw [h.get?_eq] at hf
    cases hlines : lines.filter (·.fieldKey = key) with
    | nil => rw [hlines] at hf; cases hf
    | cons line rest =>
      have hmem : line ∈ lines.filter (·.fieldKey = key) := by simp [hlines]
      exact ⟨line, List.mem_of_mem_filter hmem, of_decide_eq_true (List.mem_filter.mp hmem).2⟩
  obtain ⟨line, hmem, rfl⟩ := hline
  rw [(h.sound line hmem).key, h.get?_ofString] at hf
  split at hf <;> cases hf
  rw [FieldListing.name_ofLines]
  exact ⟨(h.sound line hmem).key, ‹_›, rfl⟩

/-- What was told stays when more is. -/
theorem Told.postings_ne_nil_of_append {lines more : Told} {term : Bytes}
    (h : (lines.ofTerm name term).postings ≠ []) :
    (Told.ofTerm (lines ++ more) name term).postings ≠ [] := by
  intro hnil
  rw [Told.ofTerm, Told.ofField, List.filter_append, List.filter_append, Told.postings,
    List.flatMap_append] at hnil
  exact h (List.append_eq_nil_iff.mp hnil).1

/-- A term that a line names has postings. -/
theorem Tells.postings_ne_nil (h : l.Tells lines) {term : Bytes}
    (hne : lines.ofTerm name term ≠ []) : (lines.ofTerm name term).postings ≠ [] := by
  obtain ⟨line, hline⟩ := List.exists_mem_of_ne_nil _ hne
  obtain ⟨hmem, rfl, rfl⟩ := Told.mem_ofTerm.mp hline
  exact h.held line hmem

/-- A term that the listing has is named by a line. -/
theorem Tells.ofTerm_ne_nil (h : l.Tells lines) {key term : Bytes}
    (hkey : key = Bytes.ofString name) (hhas : l.has key term = true) :
    lines.ofTerm name term ≠ [] := by
  intro hnil
  rw [has, hkey, h.get?_ofString] at hhas
  split at hhas
  next => cases hhas
  next =>
    rw [Option.bind_some, FieldListing.get?_ofLines, if_pos (by exact hnil)] at hhas
    cases hhas

/-- A document is counted as often as its term is told to occur in it. -/
theorem Tells.count_docs (h : l.Tells lines) (name : String) (term : Bytes) (doc : UInt32) :
    (l.docs (Bytes.ofString name) term).count doc = lines.occurrences name term doc := by
  have hterm : (lines.ofField name).filter (·.term = term) = lines.ofTerm name term := rfl
  rw [docs, h.get?_ofString]
  by_cases hfield : lines.ofField name = []
  · have hnone : lines.ofTerm name term = [] := by rw [Told.ofTerm, hfield, List.filter_nil]
    rw [if_pos hfield, Told.occurrences, hnone]
    rfl
  · rw [if_neg hfield, Option.bind_some, FieldListing.get?_ofLines, hterm]
    by_cases hnone : lines.ofTerm name term = []
    · rw [if_pos hnone, Told.occurrences, hnone]
      rfl
    · rw [if_neg hnone, Option.getD_some, DocFreqs.count_ofPostings]
      exact Nat.mod_eq_of_lt (h.counted name term doc)

/-- The postings of a line are added just if, with them, no document of its term is told to hold it
more often than 32 bits count. -/
theorem Tells.addPostings_eq_ok_iff (h : l.Tells lines)
    (hkey : line.fieldKey = Bytes.ofString line.field) : l.addPostings line = .ok l' ↔
      l' = l.put line ∧
        ∀ doc, Told.occurrences (lines ++ [line]) line.field line.term doc < 2 ^ 32 := by
  simp only [Listing.addPostings_eq_ok_iff, hkey, h.count_docs, Told.occurrences_append,
    Told.occurrences_singleton, and_self, if_true]

/-- **One line more is told.** -/
theorem Tells.add (h : l.Tells lines) (hline : line.Sound) (hadd : l.add line = .ok l') :
    l'.Tells (lines ++ [line]) := by
  unfold Listing.add at hadd
  split at hadd
  next => cases hadd
  next hheld =>
    obtain ⟨rfl, hcounted⟩ := (h.addPostings_eq_ok_iff hline.key).mp hadd
    refine ⟨?_, ?_, ?_, ?_, fun name term doc => ?_⟩
    · rw [List.foldl_concat, ← h.fields, fields_put]
    · show l.lines + 1 = _
      rw [h.count, List.length_append]
      rfl
    · intro x hx
      rcases List.mem_append.mp hx with hx | hx
      · exact h.sound x hx
      · rw [List.mem_singleton.mp hx]
        exact hline
    · intro x hx
      rcases List.mem_append.mp hx with hx | hx
      · exact Told.postings_ne_nil_of_append (h.held x hx)
      · obtain rfl := List.mem_singleton.mp hx
        by_cases hempty : x.postings = []
        · -- a line without postings is one more of a term that a line before has named
          have hhas : l.has x.fieldKey x.term = true := by
            by_contra hnot
            exact hheld (by simp [hempty, hnot])
          exact Told.postings_ne_nil_of_append
            (h.postings_ne_nil (h.ofTerm_ne_nil hline.key hhas))
        · intro hnil
          refine hempty (List.eq_nil_iff_forall_not_mem.mpr fun p hp => ?_)
          have hmem : x ∈ Told.ofTerm (lines ++ [x]) x.field x.term :=
            Told.mem_ofTerm.mpr ⟨by simp, rfl, rfl⟩
          exact List.ne_nil_of_mem (List.mem_flatMap.mpr ⟨x, hmem, hp⟩) hnil
    · by_cases hnamed : line.field = name ∧ line.term = term
      · obtain ⟨rfl, rfl⟩ := hnamed
        exact hcounted doc
      · rw [Told.occurrences_append, Told.occurrences_singleton, if_neg hnamed]
        exact h.counted name term doc

/-! ## Fields and terms of a listing -/

namespace Tells

variable {f : FieldListing} {term : Bytes} {docs : DocFreqs} {doc : UInt32}

/-- There is a field of the name if a line names it. -/
theorem exists_field_iff (h : l.Tells lines) :
    (∃ f ∈ l.fields.values, f.name = name) ↔ lines.ofField name ≠ [] := by
  constructor
  · rintro ⟨f, hf, rfl⟩
    obtain ⟨key, hget⟩ := SortedMap.mem_values_iff.mp hf
    exact (h.exists_name hget).2.1
  · intro hne
    refine ⟨_, SortedMap.mem_values_iff.mpr ⟨Bytes.ofString name, ?_⟩,
      FieldListing.name_ofLines name (lines.ofField name)⟩
    rw [h.get?_ofString, if_neg hne]

/-- A field of a listing is what its lines tell. -/
theorem eq_ofLines (h : l.Tells lines) (hf : f ∈ l.fields.values) :
    f = .ofLines f.name (lines.ofField f.name) := by
  obtain ⟨key, hget⟩ := SortedMap.mem_values_iff.mp hf
  exact (h.exists_name hget).2.2

/-- A field of a listing has frequencies if its lines tell some. -/
theorem hasFreqs_eq (h : l.Tells lines) (hf : f ∈ l.fields.values) :
    f.hasFreqs = lines.hasFreqs f.name := by
  rw [h.eq_ofLines hf, FieldListing.hasFreqs_ofLines, FieldListing.name_ofLines]
  rfl

/-- A term is there if a line names it, with the documents that such lines name. -/
theorem get?_term (h : l.Tells lines) (hf : f ∈ l.fields.values) (term : Bytes) :
    f.terms.get? term = if lines.ofTerm f.name term = [] then none
      else some (.ofPostings (lines.ofTerm f.name term).postings) := by
  have hget := FieldListing.get?_ofLines f.name (lines.ofField f.name) term
  rw [← h.eq_ofLines hf] at hget
  exact hget

/-- The documents of a term are those that its lines tell, with their occurrences. -/
theorem toList_eq (h : l.Tells lines) (hf : f ∈ l.fields.values)
    (hget : f.terms.get? term = some docs) :
    docs.toList = (lines.docs f.name term).map fun doc =>
      (doc, .ofNat (lines.occurrences f.name term doc)) := by
  rw [h.get?_term hf] at hget
  split at hget <;> cases hget
  exact DocFreqs.toList_ofPostings _

/-- A term that is named has documents. -/
theorem docs_ne_nil (h : l.Tells lines) (hne : lines.ofTerm name term ≠ []) :
    lines.docs name term ≠ [] := by
  obtain ⟨p, hp⟩ := List.exists_mem_of_ne_nil _ (h.postings_ne_nil hne)
  refine List.ne_nil_of_mem (a := p.doc) ?_
  rw [Told.docs, List.mem_insertionSort, List.mem_eraseDups]
  exact List.mem_map_of_mem hp

/-- The documents of all terms of a field are those that its lines name. -/
theorem mem_fieldDocs_iff (h : l.Tells lines) (hf : f ∈ l.fields.values) :
    doc ∈ f.terms.values.flatMap SortedMap.keys ↔ doc ∈ lines.fieldDocs f.name := by
  rw [List.mem_flatMap, Told.fieldDocs, List.mem_eraseDups, List.mem_map]
  constructor
  · rintro ⟨docs, hdocs, hdoc⟩
    obtain ⟨term, hget⟩ := SortedMap.mem_values_iff.mp hdocs
    rw [h.get?_term hf] at hget
    split at hget <;> cases hget
    obtain ⟨p, hp, rfl⟩ := List.mem_map.mp (DocFreqs.mem_keys_ofPostings.mp hdoc)
    obtain ⟨line, hline, hmem⟩ := List.mem_flatMap.mp hp
    exact ⟨p, List.mem_flatMap.mpr ⟨line, List.mem_of_mem_filter hline, hmem⟩, rfl⟩
  · rintro ⟨p, hp, rfl⟩
    obtain ⟨line, hline, hmem⟩ := List.mem_flatMap.mp hp
    obtain ⟨hmem', hfield⟩ := Told.mem_ofField.mp hline
    have hterm : line ∈ lines.ofTerm f.name line.term := Told.mem_ofTerm.mpr ⟨hmem', hfield, rfl⟩
    have hget := h.get?_term hf line.term
    rw [if_neg (List.ne_nil_of_mem hterm)] at hget
    refine ⟨_, SortedMap.mem_values_iff.mpr ⟨_, hget⟩, DocFreqs.mem_keys_ofPostings.mpr ?_⟩
    exact List.mem_map_of_mem (List.mem_flatMap.mpr ⟨line, hterm, hmem⟩)

/-- A field has terms. -/
theorem exists_term (h : l.Tells lines) (hf : f ∈ l.fields.values) :
    ∃ term, lines.ofTerm f.name term ≠ [] := by
  obtain ⟨line, hline⟩ := List.exists_mem_of_ne_nil _ (h.exists_field_iff.mp ⟨f, hf, rfl⟩)
  obtain ⟨hmem, hfield⟩ := Told.mem_ofField.mp hline
  exact ⟨line.term, List.ne_nil_of_mem (Told.mem_ofTerm.mpr ⟨hmem, hfield, rfl⟩)⟩

/-- A term occurs in each of its documents. -/
theorem occurrences_pos (h : l.Tells lines) (hdoc : doc ∈ lines.docs name term) :
    0 < lines.occurrences name term doc := by
  rw [Told.docs, List.mem_insertionSort, List.mem_eraseDups] at hdoc
  obtain ⟨p, hp, rfl⟩ := List.mem_map.mp hdoc
  obtain ⟨line, hline, hmem⟩ := List.mem_flatMap.mp hp
  have hsound := h.sound line (Told.mem_ofTerm.mp hline).1
  have hpos : 0 < (p.freq.getD 1).toNat := by
    cases hfreq : p.freq with
    | none => decide
    | some n =>
      have hne : n ≠ 0 := fun hzero => hsound.positive p hmem (by rw [hfreq, hzero])
      rw [Option.getD_some, Nat.pos_iff_ne_zero]
      exact fun hzero => hne (UInt32.toNat_inj.mp hzero)
  exact List.sum_pos_iff_exists_pos_nat.mpr
    ⟨_, List.mem_map_of_mem (List.mem_filter.mpr ⟨hp, by simp⟩), hpos⟩

end Tells

end Listing

end Lexicon
