import Lexicon.DocLists
import Lexicon.Proofs.Segment.Opening
import Lexicon.Proofs.SortedMap
import Mathlib.Data.List.Chain

/-!
# Document lists are read back

A list is read as the documents that were written. In fields with frequencies a gap shares its
number with a bit, so that it has 31 bits (`Near`) and a longer one loses the highest; in other
fields every frequency is read as one. What is read in any case is `DocFreqs.heard`.

> **`DocFreqs.heard_eq_iff`** — that is what was written just if no gap is too long;
> **`DocLists.encodeFields_kept`** — each list stands where the state of its term says;
> **`DocLists.encodeTerms_heard`** — so every list is read there, whatever is around the lists.
-/

namespace Lexicon

/-! ## Gaps and the bit behind them -/

/-- A gap as it is read where a bit stands beside it. -/
def gapHeard (gap : UInt32) : UInt32 := UInt32.ofNat (gap.toNat % 2 ^ 31)

section

variable (gap : UInt32)

/-- A gap is heard as it is just if it has 31 bits. -/
theorem gapHeard_eq_iff : gapHeard gap = gap ↔ gap.toNat < 2 ^ 31 := by
  have hgap := gap.toNat_lt
  rw [← UInt32.toNat_inj, gapHeard, UInt32.toNat_ofNat']
  omega

/-- A gap is behind the bit that tells of one occurrence. -/
theorem shiftLeft_one_or :
    (gap <<< 1 ||| 1) >>> 1 = gapHeard gap ∧ (gap <<< 1 ||| 1) &&& 1 = 1 := by
  have hcode : (gap <<< 1 ||| 1).toNat = 2 * (gap.toNat % 2 ^ 31) + 1 := by
    rw [UInt32.toNat_or, toNat_shiftLeft_one]
    exact (Nat.two_pow_add_eq_or_of_lt (show 1 < 2 ^ 1 by decide) _).symm
  constructor
  · rw [← UInt32.toNat_inj, UInt32.toNat_shiftRight, hcode, gapHeard]
    simp [Nat.shiftRight_eq_div_pow]
    omega
  · rw [← UInt32.toNat_inj, UInt32.toNat_and, hcode]
    simp [Nat.and_one_is_mod]

/-- A gap is behind the bit that tells of a frequency. -/
theorem shiftLeft_one : (gap <<< 1) >>> 1 = gapHeard gap ∧ (gap <<< 1) &&& 1 ≠ 1 := by
  constructor
  · rw [← UInt32.toNat_inj, UInt32.toNat_shiftRight, toNat_shiftLeft_one, gapHeard]
    simp [Nat.shiftRight_eq_div_pow]
    omega
  · intro hbit
    have hnat := congrArg UInt32.toNat hbit
    rw [UInt32.toNat_and, toNat_shiftLeft_one] at hnat
    simp [Nat.and_one_is_mod] at hnat

end

/-! ## One list -/

namespace DocFreqs

/-- The next document is close enough for its gap to have a bit beside it. -/
def Near (last doc : UInt32) : Prop := (doc - last).toNat < 2 ^ 31

instance (last doc : UInt32) : Decidable (Near last doc) :=
  inferInstanceAs (Decidable ((doc - last).toNat < 2 ^ 31))

/-- A document as its list tells of it. -/
def told (hasFreqs : Bool) (p : UInt32 × UInt32) : UInt32 × UInt32 :=
  if hasFreqs then p else (p.1, 1)

theorem fst_told (hasFreqs : Bool) (doc freq : UInt32) : (told hasFreqs (doc, freq)).1 = doc := by
  rw [told]
  split <;> rfl

/-- Without frequencies a gap stands by itself. -/
theorem readGaps_false (last : UInt32) (count : Nat) : readGaps false last (count + 1)
    = Read.vint >>= fun code => readGaps false (last + UInt32.ofNat code) count >>= fun more =>
      pure ((last + UInt32.ofNat code, 1) :: more) := rfl

/-- With frequencies the last bit of a gap says whether the frequency is one. -/
theorem readGaps_true (last : UInt32) (count : Nat) : readGaps true last (count + 1)
    = Read.vint >>= fun code =>
      (if UInt32.ofNat code &&& 1 = 1 then pure 1 else UInt32.ofNat <$> Read.vint) >>= fun freq =>
        readGaps true (last + UInt32.ofNat code >>> 1) count >>= fun more =>
          pure ((last + UInt32.ofNat code >>> 1, freq) :: more) := by
  rw [readGaps]
  congr 1
  funext code
  by_cases hbit : UInt32.ofNat code &&& 1 = 1
  · rw [if_pos hbit]
    exact if_pos hbit
  · rw [if_neg hbit]
    exact if_neg hbit

/-- The documents behind `last` as they are read, if that one is read as `heard`. -/
def heardFrom (hasFreqs : Bool) : UInt32 → UInt32 → List (UInt32 × UInt32) → List (UInt32 × UInt32)
  | _, _, [] => []
  | last, heard, (doc, freq) :: rest =>
    let next := heard + if hasFreqs then gapHeard (doc - last) else doc - last
    told hasFreqs (next, freq) :: heardFrom hasFreqs doc next rest

/-- The documents as their list is read, which starts with 32 bits of their number. -/
def heard (docs : DocFreqs) (hasFreqs : Bool) : List (UInt32 × UInt32) :=
  heardFrom hasFreqs 0 0 (docs.toList.take (docs.size % 2 ^ 32))

/-- As many documents are heard as were told. -/
theorem length_heardFrom (hasFreqs : Bool) (rest : List (UInt32 × UInt32)) :
    ∀ last heard, (heardFrom hasFreqs last heard rest).length = rest.length := by
  induction rest with
  | nil => exact fun _ _ => rfl
  | cons p rest ih =>
    intro last heard
    rw [heardFrom, List.length_cons, ih, List.length_cons]

/-- The gap to a document leads to it, also around the end of 32 bits. -/
theorem add_sub_self (last doc : UInt32) : last + (doc - last) = doc := by
  rw [UInt32.add_comm, UInt32.sub_add_cancel]

/-- A document is read as it was written if the one before is, and the gap is not too long. -/
theorem next_eq_iff (hasFreqs : Bool) (last doc : UInt32) :
    (last + if hasFreqs then gapHeard (doc - last) else doc - last) = doc ↔
      (hasFreqs = true → Near last doc) := by
  cases hasFreqs with
  | false => exact iff_of_true (add_sub_self last doc) nofun
  | true =>
    simp only [if_true, true_imp_iff, Near, ← gapHeard_eq_iff]
    constructor
    · exact fun h => (UInt32.add_right_inj last).mp (h.trans (add_sub_self last doc).symm)
    · intro h
      rw [h, add_sub_self]

/-- What is heard is what was told just if no document is far from the one before it. -/
theorem heardFrom_eq_iff (hasFreqs : Bool) (rest : List (UInt32 × UInt32)) :
    ∀ last, heardFrom hasFreqs last last rest = rest.map (told hasFreqs) ↔
      (hasFreqs = true → (last :: rest.map Prod.fst).IsChain Near) := by
  induction rest with
  | nil => intro last; simp [heardFrom]
  | cons p rest ih =>
    obtain ⟨doc, freq⟩ := p
    intro last
    have hnext := next_eq_iff hasFreqs last doc
    rw [heardFrom, List.map_cons, List.cons.injEq, List.map_cons, List.isChain_cons_cons]
    constructor
    · rintro ⟨hfirst, hrest⟩ hfreqs
      have hdoc := congrArg Prod.fst hfirst
      rw [fst_told, fst_told] at hdoc
      rw [hdoc] at hrest
      exact ⟨hnext.mp hdoc hfreqs, (ih doc).mp hrest hfreqs⟩
    · intro h
      rw [hnext.mpr fun hfreqs => (h hfreqs).1]
      exact ⟨rfl, (ih doc).mpr fun hfreqs => (h hfreqs).2⟩

/-- **A list is read as it was written** just if its gaps leave a bit free where they share their
numbers with one, and the number of its documents has 32 bits. -/
theorem heard_eq_iff (docs : DocFreqs) (hasFreqs : Bool) :
    docs.heard hasFreqs = docs.toList.map (told hasFreqs) ↔
      docs.size < 2 ^ 32 ∧ (hasFreqs = true → (0 :: docs.keys).IsChain Near) := by
  have hmod := Nat.mod_lt docs.size (show 0 < 2 ^ 32 by decide)
  rw [heard]
  by_cases hsize : docs.size < 2 ^ 32
  · rw [Nat.mod_eq_of_lt hsize, SortedMap.size, List.take_length, heardFrom_eq_iff]
    exact (and_iff_right hsize).symm
  · -- with more documents, some are not read
    refine iff_of_false (fun h => ?_) fun h => hsize h.1
    have hlength := congrArg List.length h
    rw [length_heardFrom, List.length_take, List.length_map, ← SortedMap.size] at hlength
    omega

/-- **The documents behind one are read.** -/
theorem takes_readGaps {hasFreqs : Bool} (rest : List (UInt32 × UInt32)) :
    ∀ last heard : UInt32, Read.Takes (readGaps hasFreqs heard rest.length)
      (Item.encodeAll (gapItems hasFreqs last rest)) (heardFrom hasFreqs last heard rest) := by
  induction rest with
  | nil => exact fun _ _ => Read.takes_pure []
  | cons p rest ih =>
    obtain ⟨doc, freq⟩ := p
    intro last heard
    cases hasFreqs with
    | false =>
      have hitems : gapItems false last ((doc, freq) :: rest)
          = .vint (doc - last) :: gapItems false doc rest := rfl
      rw [List.length_cons, readGaps_false, hitems, Item.encodeAll_cons]
      refine (Read.takes_vint_item (doc - last)).bind ?_
      rw [UInt32.ofNat_toNat]
      exact (ih doc (heard + (doc - last))).bind_pure
    | true =>
      have hmore := ih doc (heard + gapHeard (doc - last))
      rw [List.length_cons, readGaps_true]
      by_cases hone : freq = 1
      · obtain ⟨hshift, hbit⟩ := shiftLeft_one_or (doc - last)
        subst hone
        have hitems : gapItems true last ((doc, 1) :: rest)
            = .vint ((doc - last) <<< 1 ||| 1) :: gapItems true doc rest := rfl
        rw [hitems, Item.encodeAll_cons]
        refine (Read.takes_vint_item _).bind ?_
        rw [UInt32.ofNat_toNat, hshift, if_pos hbit]
        exact hmore.bind_pure
      · obtain ⟨hshift, hbit⟩ := shiftLeft_one (doc - last)
        have hitems : gapItems true last ((doc, freq) :: rest)
            = .vint ((doc - last) <<< 1) :: .vint freq :: gapItems true doc rest := by
          rw [gapItems]
          simp only [Bool.not_true, Bool.false_eq_true, if_false, if_neg hone]
          rfl
        have hfreq := (Read.takes_vint_item freq).map UInt32.ofNat
        rw [UInt32.ofNat_toNat] at hfreq
        rw [hitems, Item.encodeAll_cons, Item.encodeAll_cons]
        refine (Read.takes_vint_item _).bind ?_
        rw [UInt32.ofNat_toNat, hshift, if_neg hbit]
        exact hfreq.bind hmore.bind_pure

/-- The gaps of the first documents come first. -/
theorem gapItems_append (hasFreqs : Bool) (back front : List (UInt32 × UInt32)) :
    ∀ last, ∃ more,
      gapItems hasFreqs last (front ++ back) = gapItems hasFreqs last front ++ more := by
  induction front with
  | nil => exact fun _ => ⟨_, rfl⟩
  | cons p front ih =>
    obtain ⟨doc, freq⟩ := p
    intro last
    obtain ⟨more, hmore⟩ := ih doc
    refine ⟨more, ?_⟩
    rw [List.cons_append, gapItems, gapItems, hmore, List.append_assoc]

/-- **A list is read**, as far as the number in front of it says. -/
theorem takes_read (docs : DocFreqs) (hasFreqs : Bool) :
    ∃ bs more, Item.encodeAll (docs.items hasFreqs) = bs ++ more ∧
      Read.Takes (DocFreqs.read hasFreqs) bs (docs.heard hasFreqs) := by
  obtain ⟨more, hmore⟩ := gapItems_append hasFreqs (docs.toList.drop (docs.size % 2 ^ 32))
    (docs.toList.take (docs.size % 2 ^ 32)) 0
  rw [List.take_append_drop] at hmore
  have hcount : (UInt32.ofNat docs.size).toNat
      = (docs.toList.take (docs.size % 2 ^ 32)).length := by
    rw [UInt32.toNat_ofNat', List.length_take]
    exact (Nat.min_eq_left (Nat.mod_le ..)).symm
  have hnumber := Read.takes_vint_item (UInt32.ofNat docs.size)
  rw [hcount] at hnumber
  refine ⟨_, Item.encodeAll more, ?_, hnumber.bind (takes_readGaps _ 0 0)⟩
  rw [items, hmore, Item.encodeAll_cons, Item.encodeAll_append, List.append_assoc]
  rfl

end DocFreqs

/-! ## All lists of a segment -/

namespace DocLists

/-- What a dictionary takes in of a term, given where the bytes begin that its list is in. -/
structure Kept (hasFreqs : Bool) (offset : Nat) (lists : Bytes) (t : Bytes × DocFreqs)
    (kept : Bytes × TermState × DocList) : Prop where
  term : kept.1 = t.1
  docs : kept.2.2 = t.2.keys
  placed : ∃ before after, lists = before ++ (Item.encodeAll (t.2.items hasFreqs) ++ after) ∧
    kept.2.1 = t.2.state (offset + before.length)

/-- A list is kept with other lists around it. -/
theorem Kept.mono {hasFreqs : Bool} {offset : Nat} {lists : Bytes} {t : Bytes × DocFreqs}
    {kept : Bytes × TermState × DocList} {front : Bytes}
    (h : Kept hasFreqs (offset + front.length) lists t kept) (back : Bytes) :
    Kept hasFreqs offset (front ++ lists ++ back) t kept := by
  obtain ⟨before, after, rfl, hstate⟩ := h.placed
  refine ⟨h.term, h.docs, front ++ before, after ++ back, by simp, ?_⟩
  rw [hstate, List.length_append, Nat.add_assoc]

/-- The lists of a field's terms are one behind the other. -/
theorem encodeTerms_kept (hasFreqs : Bool) (terms : List (Bytes × DocFreqs)) :
    ∀ offset, List.Forall₂ (Kept hasFreqs offset (encodeTerms hasFreqs offset terms).1) terms
      (encodeTerms hasFreqs offset terms).2 := by
  induction terms with
  | nil => exact fun _ => .nil
  | cons t terms ih =>
    intro offset
    have hrest := ih (offset + (Item.encodeAll (t.2.items hasFreqs)).length)
    refine .cons ⟨rfl, rfl, [], _, rfl, rfl⟩ (hrest.imp fun _ _ h => ?_)
    have := h.mono []
    rwa [List.append_nil] at this

/-- The lists of the fields are one behind the other. -/
theorem encodeFields_kept (fields : List FieldListing) :
    ∀ offset, List.Forall₂ (fun (f : FieldListing) terms =>
      List.Forall₂ (Kept f.hasFreqs offset (encodeFields offset fields).1) f.terms.toList terms)
      fields (encodeFields offset fields).2 := by
  induction fields with
  | nil => exact fun _ => .nil
  | cons f fields ih =>
    intro offset
    refine .cons ?_ ?_
    · refine (encodeTerms_kept f.hasFreqs f.terms.toList offset).imp fun _ _ h => ?_
      exact @Kept.mono f.hasFreqs offset _ _ _ [] h _
    · refine (ih _).imp fun _ _ hterms => hterms.imp fun _ _ h => ?_
      have := h.mono []
      rwa [List.append_nil] at this

/-! ## The stream -/

variable {segment : Segment} {lists : Bytes}

/-- The stream of lists is ended as every other stream is. -/
theorem stream_eq (segment : Segment) (lists : Bytes) :
    stream segment lists = Frame.framed (header segment ++ lists) := by
  obtain ⟨out₁, hheader, hholds₁⟩ := Output.items_spec
    (Output.holds_empty (segment.fileName Segment.postingsExtension))
    (Streams.header segment codec)
  obtain ⟨out₂, hlists, hholds₂⟩ := Output.items_spec hholds₁ [.bytes lists]
  obtain ⟨out₃, hfooter, hholds₃⟩ := Frame.writeFooter_spec hholds₂
  have hwrite : (do
      Output.items (Streams.header segment codec)
      Output.item (.bytes lists)
      Frame.writeFooter : Write Memory Unit)
        ⟨segment.fileName Segment.postingsExtension, {}, {}⟩ = .ok () out₃ := by
    rw [bind_ok hheader, Output.item, bind_ok hlists, hfooter]
  have hbytes := hholds₃.bytes
  rw [List.nil_append, Item.encodeAll_singleton] at hbytes
  rw [stream, hwrite]
  exact hbytes

/-- **The stream of lists is accepted.** -/
theorem check_stream (hsuffix : (Bytes.ofString segment.suffix).length < 2 ^ 32) (lists : Bytes)
    (name : String) : check (stream segment lists) name segment = .ok () := by
  have hcodec : (Bytes.ofString codec).length < 2 ^ 32 := by decide +kernel
  obtain ⟨c, hheader⟩ := Reader.readHeader_framed codec lists hcodec hsuffix
  have hfooter := Frame.checkFooter_framed (header segment ++ lists) name
  rw [check, stream_eq, hfooter]
  show (Read.run _ (Frame.framed (headerBytes segment codec ++ lists)) >>= _) = _
  rw [hheader]
  rfl

/-- **A list is found where its term's state says**, and read, whatever is around the lists. -/
theorem Kept.readAt_heard {hasFreqs : Bool} {before lists : Bytes} {t : Bytes × DocFreqs}
    {kept : Bytes × TermState × DocList} (h : Kept hasFreqs before.length lists t kept)
    (hlong : (before ++ lists).length < 2 ^ 64) (after : Bytes) :
    ∃ offset : UInt64, kept.2.1.longs = [offset] ∧
      DocLists.readAt (before ++ (lists ++ after)) offset.toNat hasFreqs
        = .ok (t.2.heard hasFreqs) := by
  obtain ⟨front, back, rfl, hstate⟩ := h.placed
  obtain ⟨bs, more, hlist, hread⟩ := t.2.takes_read hasFreqs
  have hoffset : (UInt64.ofNat (before.length + front.length)).toNat
      = (before ++ front).length := by
    simp only [List.length_append] at hlong ⊢
    exact UInt64.toNat_ofNat_of_lt' (show _ < 2 ^ 64 by omega)
  refine ⟨_, by rw [hstate]; rfl, ?_⟩
  have hat := hread.runAt (before ++ front) (more ++ (back ++ after))
  rw [DocLists.readAt, hoffset, hlist]
  simpa only [List.append_assoc] using hat

/-- In the stream a list is read as it was written, if its gaps are not too long. -/
theorem Kept.readAt {hasFreqs : Bool} {t : Bytes × DocFreqs} {kept : Bytes × TermState × DocList}
    (h : Kept hasFreqs (header segment).length lists t kept) (hsize : t.2.size < 2 ^ 32)
    (hnear : hasFreqs = true → (0 :: t.2.keys).IsChain DocFreqs.Near)
    (hlong : (stream segment lists).length < 2 ^ 64) :
    ∃ offset : UInt64, kept.2.1.longs = [offset] ∧
      DocLists.readAt (stream segment lists) offset.toNat hasFreqs
        = .ok (t.2.toList.map (DocFreqs.told hasFreqs)) := by
  rw [stream_eq] at hlong ⊢
  obtain ⟨footer, hframed⟩ := Frame.framed_eq (header segment ++ lists)
  rw [Frame.length_framed] at hlong
  rw [hframed, List.append_assoc, ← (t.2.heard_eq_iff hasFreqs).mpr ⟨hsize, hnear⟩]
  exact h.readAt_heard (by omega) footer

/-- **What is read of every list of a field**, wherever its lists are put: the documents, just if
they were no more than 32 bits count and, in a field with frequencies, no gap needed a bit more than
it has. -/
theorem encodeTerms_heard (hasFreqs : Bool) (terms : List (Bytes × DocFreqs))
    (before after : Bytes)
    (hlong : (before ++ (encodeTerms hasFreqs before.length terms).1).length < 2 ^ 64) :
    List.Forall₂ (fun (t : Bytes × DocFreqs) (kept : Bytes × TermState × DocList) =>
      kept.1 = t.1 ∧ ∃ offset : UInt64, kept.2.1.longs = [offset] ∧
        DocLists.readAt (before ++ ((encodeTerms hasFreqs before.length terms).1 ++ after))
          offset.toNat hasFreqs = .ok (t.2.heard hasFreqs) ∧
        (t.2.heard hasFreqs = t.2.toList.map (DocFreqs.told hasFreqs) ↔
          t.2.size < 2 ^ 32 ∧ (hasFreqs = true → (0 :: t.2.keys).IsChain DocFreqs.Near)))
      terms (encodeTerms hasFreqs before.length terms).2 := by
  refine (encodeTerms_kept hasFreqs terms before.length).imp fun t kept h => ⟨h.term, ?_⟩
  obtain ⟨offset, hlongs, hread⟩ := h.readAt_heard hlong after
  exact ⟨offset, hlongs, hread, t.2.heard_eq_iff hasFreqs⟩

/-- One document, with a gap that leaves no bit free. -/
def farDocs : DocFreqs := ⟨[(2147483648, 2)], by decide⟩

/-- The documents of two terms: those of the first have the largest gap that leaves a bit free. -/
def farSample : List (Bytes × DocFreqs) :=
  [([97], ⟨[(3, 1), (2147483650, 7)], by decide⟩), ([98], farDocs)]

/-- The largest gap that leaves a bit free is heard, and the next one is heard as none at all. -/
theorem encodeTerms_heard_far :
    ([7] ++ (encodeTerms true 1 farSample).1).length < 2 ^ 64 ∧
      ∃ offset offset' : UInt64,
        (encodeTerms true 1 farSample).2.map (·.2.1.longs) = [[offset], [offset']] ∧
        DocLists.readAt ([7] ++ ((encodeTerms true 1 farSample).1 ++ [9])) offset.toNat true
          = .ok [(3, 1), (2147483650, 7)] ∧
        DocLists.readAt ([7] ++ ((encodeTerms true 1 farSample).1 ++ [9])) offset'.toNat true
          = .ok [(0, 2)] := by
  have hlong : ([7] ++ (encodeTerms true 1 farSample).1).length < 2 ^ 64 := by decide +kernel
  have h := encodeTerms_heard true farSample [7] [9] hlong
  obtain ⟨kept, _, ⟨-, offset, hlongs, hread, -⟩, hrest, hkept⟩ := List.forall₂_cons_left_iff.mp h
  obtain ⟨kept', _, ⟨-, offset', hlongs', hread', -⟩, hnil, rfl⟩ :=
    List.forall₂_cons_left_iff.mp hrest
  obtain rfl := List.forall₂_nil_left_iff.mp hnil
  refine ⟨hlong, offset, offset', ?_, hread, hread'⟩
  rw [List.length_singleton] at hkept
  rw [hkept, List.map_cons, List.map_cons, hlongs, hlongs', List.map_nil]

/-- A document far behind the one before comes back as another. -/
theorem readAt_far :
    DocLists.readAt (encodeTerms true 0 [([97], farDocs)]).1 0 true = .ok [(0, 2)] ∧
      farDocs.toList.map (DocFreqs.told true) ≠ [(0, 2)] := by
  decide +kernel

end DocLists

/-! ## States -/

namespace DocFreqs

variable {docs : DocFreqs}

/-- How often the term occurs in all documents. -/
def total (docs : DocFreqs) : Nat := (docs.values.map UInt32.toNat).sum

/-- Frequencies of 32 bits are added up in 64 bits. -/
theorem foldl_toUInt64 (freqs : List UInt32) (n : Nat) :
    freqs.foldl (fun (sum : UInt64) freq => sum + freq.toUInt64) (UInt64.ofNat n)
      = UInt64.ofNat (n + (freqs.map UInt32.toNat).sum) := by
  induction freqs generalizing n with
  | nil => rfl
  | cons freq freqs ih =>
    have hone : freq.toUInt64 = UInt64.ofNat freq.toNat := by
      rw [← UInt64.toNat_inj, UInt32.toNat_toUInt64, UInt64.toNat_ofNat_of_lt']
      exact Nat.lt_trans freq.toNat_lt (by decide)
    rw [List.foldl_cons, hone, ← UInt64.ofNat_add, ih, List.map_cons, List.sum_cons, Nat.add_assoc]

/-- The total frequency of a term is the sum over its documents. -/
theorem state_totalFreq (docs : DocFreqs) (offset : Nat) :
    (docs.state offset).totalFreq = UInt64.ofNat docs.total := by
  have h := foldl_toUInt64 docs.values 0
  rw [Nat.zero_add] at h
  exact h

/-- Frequencies of 32 bits add up to less than 2^32 each. -/
theorem sum_le (freqs : List UInt32) : (freqs.map UInt32.toNat).sum ≤ freqs.length * 2 ^ 32 := by
  induction freqs with
  | nil => exact Nat.zero_le _
  | cons freq freqs ih =>
    have := freq.toNat_lt
    rw [List.map_cons, List.sum_cons, List.length_cons]
    omega

/-- Frequencies that are not zero add up to one each at least. -/
theorem length_le_sum {freqs : List UInt32} (hpos : ∀ freq ∈ freqs, freq ≠ 0) :
    freqs.length ≤ (freqs.map UInt32.toNat).sum := by
  induction freqs with
  | nil => exact Nat.le_refl 0
  | cons freq freqs ih =>
    obtain ⟨hfirst, hrest⟩ := List.forall_mem_cons.mp hpos
    have hone : freq.toNat ≠ 0 := fun hzero => hfirst (UInt32.toNat_inj.mp hzero)
    have := ih hrest
    rw [List.map_cons, List.sum_cons, List.length_cons]
    omega

theorem length_values (docs : DocFreqs) : docs.values.length = docs.size := List.length_map ..

/-- Fewer than 2^31 documents have a total frequency below 2^63. -/
theorem total_lt (hsize : docs.size < 2 ^ 31) : docs.total < 2 ^ 63 := by
  have := sum_le docs.values
  rw [length_values] at this
  rw [total]
  omega

/-- The number of documents fits the state of the term. -/
theorem docFreq_state (hsize : docs.size < 2 ^ 31) (offset : Nat) :
    (docs.state offset).docFreq.toNat = docs.size :=
  UInt32.toNat_ofNat_of_lt' (show _ < 2 ^ 32 by omega)

/-- The total frequency fits the state of the term. -/
theorem totalFreq_state (hsize : docs.size < 2 ^ 31) (offset : Nat) :
    (docs.state offset).totalFreq.toNat = docs.total := by
  have := total_lt hsize
  rw [state_totalFreq]
  exact UInt64.toNat_ofNat_of_lt' (show _ < 2 ^ 64 by omega)

/-- A field keeps of a state what it has: without frequencies, the term occurs once a document. -/
theorem normalized_state (hsize : docs.size < 2 ^ 31) (hasFreqs : Bool) (offset : Nat) :
    ((docs.state offset).normalized hasFreqs).docFreq.toNat = docs.size ∧
      ((docs.state offset).normalized hasFreqs).totalFreq.toNat
        = if hasFreqs then docs.total else docs.size := by
  cases hasFreqs with
  | false =>
    refine ⟨docFreq_state hsize offset, ?_⟩
    show (docs.state offset).docFreq.toUInt64.toNat = _
    rw [UInt32.toNat_toUInt64, docFreq_state hsize]
    rfl
  | true => exact ⟨docFreq_state hsize offset, totalFreq_state hsize offset⟩

/-- **The state of a term is accepted**, if it has documents and not too many of them. -/
theorem check_state {hasFreqs : Bool} (offset : Nat) (hne : docs.toList ≠ [])
    (hsize : docs.size < 2 ^ 31) (hpos : hasFreqs = true → ∀ freq ∈ docs.values, freq ≠ 0) :
    (docs.state offset).check hasFreqs = .ok () := by
  have hdocs := docFreq_state hsize offset
  have hsome : 0 < docs.size := List.length_pos_iff.mpr hne
  have hzero : (docs.state offset).docFreq ≠ 0 := by
    intro h
    rw [h] at hdocs
    exact Nat.ne_of_lt hsome hdocs
  rw [TermState.check, if_neg hzero, hdocs, if_neg (by rw [TermState.maxDocFreq]; omega),
    totalFreq_state hsize, if_neg]
  rintro ⟨hfreqs, hlt⟩
  have := length_le_sum (hpos hfreqs)
  rw [length_values] at this
  exact absurd hlt (Nat.not_lt.mpr this)

end DocFreqs

end Lexicon
