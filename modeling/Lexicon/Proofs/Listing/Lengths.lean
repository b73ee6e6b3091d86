import Lexicon.Proofs.Listing.Script
import Lexicon.Proofs.Segment.Lengths
import Mathlib.Algebra.Order.BigOperators.Group.List
import Mathlib.Algebra.Order.Group.Nat

/-!
# Texts that are short enough

What a listing has weighs no more than its text is long, counting for every term its bytes, two for
itself and two for each of its documents. All that the formats have to hold is bounded by this
weight, and so are the streams that are written.

> **`Listing.weight_le`** — a listing is no heavier than its text is long;
> **`Listing.fits_of_light`** — and the formats hold a listing that is not too heavy.
-/

namespace Lexicon

/-! ## Parts of texts -/

section

variable {α : Type} [DecidableEq α] {separator : α}

/-- The parts and the separators between them are the whole. -/
theorem sum_splitAt (separator : α) (l : List α) :
    ((splitAt separator l).map fun part => part.length + 1).sum = l.length + 1 := by
  induction l with
  | nil => rfl
  | cons a rest ih =>
    unfold splitAt
    by_cases h : a = separator
    · rw [if_pos h, List.map_cons, List.sum_cons, ih, List.length_cons, List.length_nil]
      omega
    · rw [if_neg h]
      cases hparts : splitAt separator rest with
      | nil =>
        rw [hparts] at ih
        cases ih
      | cons part parts =>
        rw [hparts, List.map_cons, List.sum_cons] at ih
        simp only [List.map_cons, List.sum_cons, List.length_cons]
        omega

end

/-- A text has no more characters than bytes. -/
theorem Bytes.length_toList_le (s : String) : s.toList.length ≤ (Bytes.ofString s).length := by
  have hbytes : Bytes.ofString s = s.toList.flatMap String.utf8EncodeChar := by
    rw [ofString_eq, ← String.utf8Encode_toList, List.utf8Encode, List.data_toByteArray]
  have hlength : ∀ cs : List Char, cs.length ≤ (cs.flatMap String.utf8EncodeChar).length := by
    intro cs
    induction cs with
    | nil => exact Nat.le_refl _
    | cons c cs ih =>
      have hpos := c.utf8Size_pos
      rw [List.flatMap_cons, List.length_append, String.length_utf8EncodeChar, List.length_cons]
      omega
  rw [hbytes]
  exact hlength s.toList

/-! ## The weight of lines -/

/-- Postings that are not blank have a character and a comma each. -/
theorem Posting.length_written_le (text : String) :
    2 * (written text).length ≤ text.toList.length + 1 := by
  have hparts : ∀ parts : List (List Char),
      2 * ((parts.map Text.trim).filter (!·.isEmpty)).length
        ≤ (parts.map fun part => part.length + 1).sum := by
    intro parts
    induction parts with
    | nil => exact Nat.le_refl _
    | cons part parts ih =>
      rw [List.map_cons, List.map_cons, List.sum_cons]
      cases part with
      | nil =>
        rw [List.filter_cons_of_neg (by decide)]
        omega
      | cons c part =>
        have hle := List.length_filter_le (fun cs : List Char => !cs.isEmpty)
          [Text.trim (c :: part)]
        rw [← List.singleton_append, List.filter_append, List.length_append]
        simp only [List.length_cons, List.length_nil] at hle ⊢
        omega
  rw [written, ← splitAt_eq_splitOn, ← sum_splitAt ',']
  exact hparts _

namespace ListingLine

/-- What a line can add to the weight of a listing. -/
def weight (line : ListingLine) : Nat := line.term.length + 2 * line.postings.length + 3

/-- A line is as long as it is heavy, with the one byte that ends it. -/
theorem weight_le {bytes : Bytes} {line : ListingLine} (h : parse bytes = .ok line) :
    line.weight ≤ bytes.length + 1 := by
  obtain @⟨field, text, term, postings, -, hfield, -, hpostings⟩ := parse_eq_ok_iff.mp h
  have hkey : 0 < (Bytes.ofString field).length :=
    List.length_pos_iff.mpr fun hnil =>
      hfield (Bytes.ofString_inj (hnil.trans Bytes.ofString_empty.symm))
  have htext := Bytes.length_toList_le text
  have hwritten := Posting.length_written_le text
  have hcount := hpostings.length_eq
  simp only [List.length_append, List.length_cons]
  show term.length + 2 * postings.length + 3 ≤ _
  omega

end ListingLine

/-! ## The weight of listings -/

/-- An update of one key adds no more to a sum over a map than it adds for the key. -/
theorem SortedMap.sum_upsert_le {κ ν : Type} [LT κ] [DecidableLT κ] [DecidableEq κ] [LE κ]
    [Std.IsLinearOrder κ] [Std.LawfulOrderLT κ] (m : SortedMap κ ν) (key : κ) (f : Option ν → ν)
    (weight : κ × ν → Nat) {more : Nat} (hnew : weight (key, f none) ≤ more)
    (hold : ∀ v, weight (key, f (some v)) ≤ weight (key, v) + more) :
    ((m.upsert key f).toList.map weight).sum ≤ (m.toList.map weight).sum + more := by
  show ((put key f m.toList).map weight).sum ≤ _
  induction m.toList with
  | nil =>
    rw [put, List.map_cons, List.sum_cons]
    exact Nat.add_comm _ more ▸ Nat.add_le_add_right hnew _
  | cons p rest ih =>
    obtain ⟨k, v⟩ := p
    rw [put]
    by_cases hlt : key < k
    · rw [if_pos hlt, List.map_cons, List.sum_cons]
      omega
    · rw [if_neg hlt]
      by_cases hkey : key = k
      · subst hkey
        have := hold v
        rw [if_pos rfl, List.map_cons, List.map_cons, List.sum_cons, List.sum_cons]
        omega
      · rw [if_neg hkey, List.map_cons, List.map_cons, List.sum_cons, List.sum_cons]
        omega

/-- As many documents are added to a term at most as there are postings. -/
theorem DocFreqs.size_foldl_put_le (ps : List Posting) :
    ∀ docs : DocFreqs, (ps.foldl put docs).size ≤ docs.size + ps.length := by
  have hsize : ∀ docs : DocFreqs, docs.size = (docs.toList.map fun _ => 1).sum := by
    intro docs
    rw [List.map_const', List.sum_replicate_nat, Nat.mul_one]
    rfl
  induction ps with
  | nil => exact fun docs => Nat.le_refl _
  | cons p ps ih =>
    intro docs
    have hrest := ih (docs.put p)
    have hfirst := SortedMap.sum_upsert_le docs p.doc (fun before => before.getD 0 + p.freq.getD 1)
      (fun _ => 1) (Nat.le_refl 1) fun _ => Nat.le_succ 1
    change ((docs.put p).toList.map fun _ => 1).sum ≤ _ at hfirst
    rw [← hsize, ← hsize] at hfirst
    rw [List.foldl_cons, List.length_cons]
    omega

namespace FieldListing

/-- The weight of the terms of a field: their bytes, two for each term and two for each of its
documents. -/
def weight (f : FieldListing) : Nat :=
  (f.terms.toList.map fun p => p.1.length + 2 * p.2.size + 2).sum

/-- What is merged into a field weighs at most what the line weighs. -/
theorem weight_put_le (f : FieldListing) (term : Bytes) (ps : List Posting) :
    (f.put term ps).weight ≤ f.weight + (term.length + 2 * ps.length + 2) := by
  rw [weight, terms_put]
  refine SortedMap.sum_upsert_le f.terms term
    (fun before => ps.foldl DocFreqs.put (before.getD {}))
    (fun p => p.1.length + 2 * p.2.size + 2) ?_ fun docs => ?_
  · have := DocFreqs.size_foldl_put_le ps {}
    show term.length + 2 * (ps.foldl DocFreqs.put {}).size + 2 ≤ _
    change _ ≤ 0 + ps.length at this
    omega
  · have := DocFreqs.size_foldl_put_le ps docs
    show term.length + 2 * (ps.foldl DocFreqs.put docs).size + 2
      ≤ term.length + 2 * docs.size + 2 + _
    omega

end FieldListing

namespace Listing

/-- The weight of all fields, with one for each of them. -/
def weight (l : Listing) : Nat := (l.fields.values.map fun f => f.weight + 1).sum

/-- A listing weighs at most one line more. -/
theorem weight_add_le {l l' : Listing} {line : ListingLine} (h : l.add line = .ok l') :
    l'.weight ≤ l.weight + line.weight := by
  unfold Listing.add at h
  split at h
  next => cases h
  next =>
    obtain ⟨rfl, -⟩ := addPostings_eq_ok_iff.mp h
    have hfield := fun f : FieldListing => f.weight_put_le line.term line.postings
    rw [weight, weight, SortedMap.values, SortedMap.values, List.map_map, List.map_map, fields_put]
    refine SortedMap.sum_upsert_le l.fields line.fieldKey
      (merge line) (fun p => p.2.weight + 1) ?_ fun f => ?_
    · have hempty : ({ name := line.field } : FieldListing).weight = 0 := rfl
      have hnew := hfield { name := line.field }
      rw [hempty, Nat.zero_add] at hnew
      exact Nat.add_le_add_right hnew 1
    · show (f.put line.term line.postings).weight + 1 ≤ f.weight + 1 + line.weight
      have hmore := hfield f
      rw [ListingLine.weight]
      omega

/-- **A listing is no heavier than its text is long**, with the byte that ends its last line. -/
theorem weight_le {data : Bytes} {l : Listing} (h : parse data = .ok l) :
    l.weight ≤ data.length + 1 := by
  have hrun : ∀ (rest : List Bytes) (number : Nat) {l l' : Listing},
      l.addLines number rest = .ok l' →
      l'.weight ≤ l.weight + (rest.map fun bytes => bytes.length + 1).sum := by
    intro rest
    induction rest with
    | nil =>
      intro number l l' h
      cases h
      exact Nat.le_add_right ..
    | cons bytes rest ih =>
      intro number l l' h
      unfold addLines at h
      split at h
      next l₁ hfirst =>
        have hrest := ih (number + 1) h
        have hline : l₁.weight ≤ l.weight + (bytes.length + 1) := by
          by_cases hspeaks : speaks (withoutReturn bytes) = true
          · obtain ⟨line, hparse, hadd⟩ := (addLine_eq_ok_iff hspeaks).mp hfirst
            have hread := ListingLine.weight_le hparse
            have hmore := weight_add_le hadd
            have hshorter : (withoutReturn bytes).length ≤ bytes.length := by
              unfold withoutReturn
              split
              · rw [List.length_dropLast]
                omega
              · exact Nat.le_refl _
            omega
          · rw [addLine, if_neg hspeaks] at hfirst
            cases hfirst
            exact Nat.le_add_right ..
        rw [List.map_cons, List.sum_cons]
        omega
      next => cases h
  have hall := hrun _ 1 h
  rw [sum_splitAt] at hall
  exact Nat.le_trans hall (Nat.le_of_eq (Nat.zero_add _))

end Listing

/-! ## The lists -/

/-- A document takes at most ten bytes in a list. -/
theorem DocFreqs.length_gapItems_le (hasFreqs : Bool) (rest : List (UInt32 × UInt32)) :
    ∀ last, (Item.encodeAll (gapItems hasFreqs last rest)).length ≤ 10 * rest.length := by
  induction rest with
  | nil => exact fun last => Nat.le_refl _
  | cons p rest ih =>
    obtain ⟨doc, freq⟩ := p
    intro last
    have hrest := ih doc
    have hnumber := Item.length_encode_vint
    rw [gapItems, Item.encodeAll_append, List.length_append, List.length_cons]
    split
    next =>
      have := hnumber (doc - last)
      rw [Item.encodeAll_singleton]
      omega
    next =>
      split
      next =>
        have := hnumber ((doc - last) <<< 1 ||| 1)
        rw [Item.encodeAll_singleton]
        omega
      next =>
        have := hnumber ((doc - last) <<< 1)
        have := hnumber freq
        rw [Item.encodeAll_cons, Item.encodeAll_singleton, List.length_append]
        omega

/-- A list takes at most five bytes more than its documents do. -/
theorem DocFreqs.length_items_le (docs : DocFreqs) (hasFreqs : Bool) :
    (Item.encodeAll (docs.items hasFreqs)).length ≤ 5 + 10 * docs.size := by
  have hcount := Item.length_encode_nat32 docs.size
  have hgaps := length_gapItems_le hasFreqs docs.toList 0
  rw [items, Item.encodeAll_cons, List.length_append]
  change _ ≤ 10 * docs.size at hgaps
  omega

/-- The lists of terms take at most five bytes for each unit of their weight. -/
theorem DocLists.length_encodeTerms_le (hasFreqs : Bool) (terms : List (Bytes × DocFreqs)) :
    ∀ offset, (encodeTerms hasFreqs offset terms).1.length
      ≤ 5 * (terms.map fun p => p.1.length + 2 * p.2.size + 2).sum := by
  induction terms with
  | nil => exact fun offset => Nat.zero_le _
  | cons p terms ih =>
    obtain ⟨term, docs⟩ := p
    intro offset
    have hfirst := docs.length_items_le hasFreqs
    have hrest := ih (offset + (Item.encodeAll (docs.items hasFreqs)).length)
    rw [encodeTerms, List.map_cons, List.sum_cons]
    show (_ ++ _ : Bytes).length ≤ 5 * (term.length + 2 * docs.size + 2 + _)
    rw [List.length_append]
    omega

theorem DocLists.length_encodeFields_le (fields : List FieldListing) :
    ∀ offset, (encodeFields offset fields).1.length
      ≤ 5 * (fields.map fun f => f.weight + 1).sum := by
  induction fields with
  | nil => exact fun offset => Nat.zero_le _
  | cons f fields ih =>
    intro offset
    have hfirst := length_encodeTerms_le f.hasFreqs f.terms.toList offset
    have hrest := ih (offset + (encodeTerms f.hasFreqs offset f.terms.toList).1.length)
    rw [encodeFields, List.map_cons, List.sum_cons]
    show (_ ++ _ : Bytes).length ≤ _
    change _ ≤ 5 * f.weight at hfirst
    rw [List.length_append]
    omega

/-! ## The dictionary -/

/-- The load of terms with one word each is their bytes and 30 each. -/
theorem Terms.load_eq {terms : Terms} (h : ∀ t ∈ terms, t.2.longs.length = 1) :
    terms.load = termBytes terms + 30 * terms.length := by
  induction terms with
  | nil => rfl
  | cons t terms ih =>
    obtain ⟨hone, hrest⟩ := List.forall_mem_cons.mp h
    rw [load_cons, termBytes_cons, ih hrest, Entry.load, hone, List.length_cons]
    omega

/-- No block of terms with one number each is too large, where all of them are few or short. -/
theorem Terms.small_of_light {sizes : BlockSizes} {terms : Terms} {weight : Nat}
    (h : ∀ t ∈ terms, t.2.longs.length = 1)
    (hweight : termBytes terms + 2 * terms.length < weight)
    (hlight : weight + 28 * min sizes.max weight ≤ 2 ^ 31) : terms.Small sizes := by
  intro part hpart hmax
  have hbytes : termBytes part ≤ termBytes terms :=
    (hpart.map fun t : Bytes × TermState => t.1.length).sum_le_sum fun _ _ => Nat.zero_le _
  have hlength := hpart.length_le
  rw [load_eq fun t ht => h t (hpart.subset ht)]
  omega

namespace Listing

variable {l : Listing} {segment : Segment} {sizes : BlockSizes} {lists : Bytes} {f : FieldListing}
  {x : FieldInfo × FieldTerms}

namespace Taken

/-- The dictionary takes in what weighs as much. -/
theorem weight_eq (h : Taken segment lists f x) : f.weight = termBytes (fieldScript x).terms
    + 2 * (f.terms.toList.map fun p => p.2.size).sum + 2 * (fieldScript x).terms.length := by
  have hsum : ∀ {terms : List (Bytes × DocFreqs)} {kept : FieldTerms},
      List.Forall₂ (DocLists.Kept f.hasFreqs (DocLists.header segment).length lists) terms kept →
      (terms.map fun p => p.1.length + 2 * p.2.size + 2).sum
        = termBytes (kept.map fun t => (t.1, t.2.1)) + 2 * (terms.map fun p => p.2.size).sum
          + 2 * (kept.map fun t => (t.1, t.2.1)).length := by
    intro terms kept h
    induction h with
    | nil => rfl
    | cons hfirst _ ih =>
      simp only [List.map_cons, List.sum_cons, termBytes_cons, List.length_cons, hfirst.term, ih]
      omega
  rw [terms_eq]
  exact hsum h.terms

/-- A field is heavier than its terms, and heavier than its documents. -/
theorem light (h : Taken segment lists f x) :
    termBytes (fieldScript x).terms + 2 * (fieldScript x).terms.length ≤ f.weight ∧
      2 * (f.terms.toList.map fun p => p.2.size).sum ≤ f.weight := by
  have hweight := h.weight_eq
  omega

/-- Each term has one number. -/
theorem length_longs (h : Taken segment lists f x) :
    ∀ t ∈ (fieldScript x).terms, t.2.longs.length = 1 := by
  intro t ht
  rw [terms_eq] at ht
  obtain ⟨kept, hkept, rfl⟩ := List.mem_map.mp ht
  obtain ⟨p, -, hof⟩ := h.terms.exists_left hkept
  obtain ⟨before, after, -, hstate⟩ := hof.placed
  show kept.2.1.longs.length = 1
  rw [hstate]
  rfl

/-- The terms of a field have a load of at most 15 for each unit of its weight. -/
theorem load_le (h : Taken segment lists f x) : (fieldScript x).terms.load ≤ 15 * f.weight := by
  have hlight := h.light.1
  rw [Terms.load_eq h.length_longs]
  omega

/-- The index of a field takes a bounded number of bytes for each unit of its weight. -/
theorem indexRoom_le (h : Taken segment lists f x) :
    indexRoom (fieldScript x).terms ≤ 5689 * (f.weight + 1) := by
  have hlight := h.light.1
  rw [indexRoom, Transducer.arcRoom, locationRoom]
  omega

/-- The terms of a field that is light enough are small. -/
theorem small (h : Taken segment lists f x) {weight : Nat} (hweight : f.weight < weight)
    (hlight : weight + 28 * min sizes.max weight ≤ 2 ^ 31) : (fieldScript x).kept.Small sizes := by
  refine Terms.small_of_light ?_ ?_ hlight
  · intro t ht
    obtain ⟨t', ht', rfl⟩ := List.mem_map.mp ht
    have hone := h.length_longs t' ht'
    show (TermState.normalized _ _).longs.length = 1
    cases (fieldScript x).hasFreqs <;> exact hone
  · have := h.light.1
    rw [FieldScript.kept, termBytes_kept, Terms.kept, List.length_map]
    omega

/-- How often the terms occur is counted in 32 bits for each document. -/
theorem totalFreqs_le (h : Taken segment lists f x)
    (hsize : ∀ docs ∈ f.terms.values, docs.size < 2 ^ 31) :
    (fieldScript x).kept.totalFreqs ≤ 2 ^ 32 * (f.terms.toList.map fun p => p.2.size).sum := by
  rw [FieldScript.kept, Terms.totalFreqs, Terms.kept, terms_eq, List.map_map, List.map_map]
  refine (h.terms.imp_of_mem fun p hp kept hkept => ?_).sum_le
  obtain ⟨before, after, -, hstate⟩ := hkept.placed
  have htotal := (DocFreqs.normalized_state (hsize p.2 (List.mem_map_of_mem hp))
    (fieldScript x).hasFreqs ((DocLists.header segment).length + before.length)).2
  have hsum := DocFreqs.sum_le p.2.values
  rw [DocFreqs.length_values] at hsum
  show (TermState.normalized kept.2.1 _).totalFreq.toNat ≤ _
  rw [hstate, htotal]
  split
  next => exact Nat.mul_comm _ (2 ^ 32) ▸ hsum
  next => exact Nat.le_mul_of_pos_left _ (by decide)

/-- The terms of a field that is light enough leave room. -/
theorem room (h : Taken segment lists f x) (hlight : f.weight < 2 ^ 31) :
    Room (fieldScript x).terms := by
  have := h.light.1
  rw [Room, Transducer.arcRoom, locationRoom]
  omega

end Taken

/-! ## Listings that are not too heavy -/

/-- A field weighs less than its listing. -/
theorem weight_lt (hf : f ∈ l.fields.values) : f.weight < l.weight := by
  have hmem : f.weight + 1 ∈ l.fields.values.map fun f => f.weight + 1 :=
    List.mem_map.mpr ⟨f, hf, rfl⟩
  exact List.le_sum_of_mem hmem

/-- Each field weighs one at least. -/
theorem size_fields_le (l : Listing) : l.fields.size ≤ l.weight := by
  have hcount := List.length_le_sum_of_one_le (l.fields.values.map fun f => f.weight + 1) (by simp)
  rw [List.length_map, SortedMap.values, List.length_map] at hcount
  exact hcount

/-- The documents of a term weigh two each. -/
theorem size_docs_le {docs : DocFreqs} (hdocs : docs ∈ f.terms.values) :
    2 * docs.size ≤ f.weight := by
  obtain ⟨p, hp, rfl⟩ := List.mem_map.mp hdocs
  have hone : p.1.length + 2 * p.2.size + 2 ≤ f.weight :=
    List.le_sum_of_mem (List.mem_map.mpr ⟨p, hp, rfl⟩)
  omega

/-- The stream of lists is at most five times as long as the listing is heavy. -/
theorem length_lists_le (l : Listing) (segment : Segment) :
    (DocLists.stream segment (l.encode segment).1).length
      ≤ (headerBytes segment DocLists.codec).length + 5 * l.weight + 16 := by
  rw [DocLists.stream_eq, Frame.length_framed, List.length_append]
  exact Nat.add_le_add_right (Nat.add_le_add_left (DocLists.length_encodeFields_le ..) _) 16

/-- The loads of all fields are bounded by the weight of the listing. -/
theorem sum_load_le (l : Listing) (segment : Segment) (sizes : BlockSizes) :
    ((l.script segment sizes).fields.map fun s => s.terms.load).sum ≤ 15 * l.weight := by
  rw [script, List.map_map]
  refine ((l.encode_taken segment).imp fun f x hof => ?_).sum_le
  exact Nat.le_trans hof.load_le (Nat.mul_le_mul_left 15 (Nat.le_succ _))

theorem sum_indexRoom_le (l : Listing) (segment : Segment) (sizes : BlockSizes) :
    ((l.script segment sizes).fields.map fun s => indexRoom s.terms).sum ≤ 5689 * l.weight := by
  rw [script, List.map_map]
  exact ((l.encode_taken segment).imp fun f x hof => hof.indexRoom_le).sum_le

/-- **The formats hold a listing that is not too heavy**, if it can be written at all. -/
theorem fits_of_light (hsizes : sizes.check = .ok ())
    (hsuffix : (Bytes.ofString segment.suffix).length < 2 ^ 32)
    (hlight : l.weight + 28 * min sizes.max l.weight ≤ 2 ^ 31)
    (hheld : ∀ f ∈ l.fields.values, ∀ docs ∈ f.terms.values, docs.toList ≠ [])
    (hpos : ∀ f ∈ l.fields.values, f.hasFreqs = true →
      ∀ docs ∈ f.terms.values, ∀ freq ∈ docs.values, freq ≠ 0) : l.Fits segment sizes := by
  have hfew : l.fields.size < 2 ^ 32 := by
    have := l.size_fields_le
    omega
  have hdocs : ∀ f ∈ l.fields.values, ∀ docs ∈ f.terms.values, docs.size < 2 ^ 31 := by
    intro f hf docs hdocs
    have := weight_lt hf
    have := size_docs_le hdocs
    omega
  have hroom : ∀ s ∈ (l.script segment sizes).fields, Room s.terms := by
    intro s hs
    obtain ⟨f, hf, x, rfl, hof⟩ := exists_taken hs
    have := weight_lt hf
    exact hof.room (by omega)
  have hheader : ∀ codec, (Bytes.ofString codec).length ≤ 20 →
      (headerBytes segment codec).length < 2 ^ 33 := by
    intro codec hcodec
    have := length_headerBytes_le segment codec
    omega
  refine ⟨hsuffix, hfew, hdocs, ?lists, hroom, ?small, ?sums, ?addressable⟩
  case lists =>
    have := l.length_lists_le segment
    have := hheader DocLists.codec (by decide +kernel)
    omega
  case small =>
    intro s hs
    obtain ⟨f, hf, x, rfl, hof⟩ := exists_taken hs
    exact hof.small (weight_lt hf) hlight
  case sums =>
    intro s hs
    obtain ⟨f, hf, x, rfl, hof⟩ := exists_taken hs
    have := hof.light.2
    have := weight_lt hf
    have := hof.totalFreqs_le (hdocs f hf)
    have := hof.distinct_le
    omega
  case addressable =>
    intro w hw
    have hnumbers : (l.script segment sizes).infos.Pairwise (·.number < ·.number) := by
      rw [infos_script]
      exact fieldInfos_increasing hfew
    have hfinished : ∀ s ∈ (l.script segment sizes).fields, s.finished = true := by
      intro s hs
      obtain ⟨x, -, rfl⟩ := List.mem_map.mp hs
      rfl
    obtain ⟨hterms, hindex⟩ := SegmentScript.written_lengths hsizes hnumbers
      (acceptable_script hheld hpos hdocs hroom) hfinished hw
    have := l.sum_load_le segment sizes
    have := l.sum_indexRoom_le segment sizes
    have := hheader Streams.codecs.terms (by decide +kernel)
    have := hheader Streams.codecs.index (by decide +kernel)
    rw [Frame.footerLength]
    change w.terms.position ≤ (headerBytes segment Streams.codecs.terms).length + _ at hterms
    change w.index.position ≤ (headerBytes segment Streams.codecs.index).length + _ at hindex
    omega

end Listing

end Lexicon
