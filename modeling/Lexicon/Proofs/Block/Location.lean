import Lexicon.Block.Location
import Lexicon.Proofs.Reading

/-!
# Locations are read back

`Location.decode_encode`: what the index stores of a run gives back where all its blocks are. The
offsets need to fit 62 bits beside the two flags, and the blocks after the first have to lie behind
it, as they do in a run.
-/

namespace Lexicon.Location

open Read

/-- What the format asks of a location. -/
structure Storable (l : Location) : Prop where
  fp_lt : l.fp < 2 ^ 62
  siblings : ∀ s ∈ l.siblings, l.fp < s.fp ∧ s.fp < 2 ^ 62
  count_lt : l.siblings.length < 2 ^ 32
  floor : l.isFloor = false → l.siblings = []

theorem decide_mod_two (n : Nat) (b : Bool) : decide ((2 * n + b.toNat) % 2 = 1) = b := by
  have hmod : (2 * n + b.toNat) % 2 = b.toNat := by
    have := Bool.toNat_lt b
    omega
  rw [hmod]
  cases b <;> rfl

theorem takes_readSiblings (base : Nat) (siblings : List Sibling)
    (h : ∀ s ∈ siblings, base < s.fp ∧ s.fp < 2 ^ 62) :
    Takes (readSiblings base siblings.length)
      (Item.encodeAll (siblings.flatMap (siblingItems base))) siblings := by
  induction siblings with
  | nil => exact takes_pure _
  | cons s siblings ih =>
    obtain ⟨lead, fp, hasTerms⟩ := s
    obtain ⟨hlow, hhigh⟩ := h _ (List.mem_cons_self ..)
    simp only at hlow hhigh
    have hflag := Bool.toNat_lt hasTerms
    have hcode : base + (2 * (fp - base) + hasTerms.toNat) / 2 = fp := by omega
    rw [List.flatMap_cons, Item.encodeAll_append, siblingItems, Item.encodeAll_cons,
      Item.encodeAll_singleton, List.append_assoc, List.length_cons, readSiblings]
    refine (takes_byte lead).bind
      ((takes_nat64 (show 2 * (fp - base) + hasTerms.toNat < 2 ^ 64 by omega)).bind ?_)
    simp only [hcode, decide_mod_two]
    exact (ih fun s hs => h s (List.mem_cons_of_mem _ hs)).bind_pure
      (f := fun rest => (⟨lead, fp, hasTerms⟩ : Sibling) :: rest)

theorem length_le_siblingItems (base : Nat) (siblings : List Sibling) :
    siblings.length ≤ (Item.encodeAll (siblings.flatMap (siblingItems base))).length := by
  induction siblings with
  | nil => exact Nat.zero_le _
  | cons s siblings ih =>
    rw [List.flatMap_cons, Item.encodeAll_append, List.length_append, siblingItems,
      Item.encodeAll_cons, List.length_append, List.length_cons]
    show siblings.length + 1 ≤ 1 + _ + _
    omega

/-- The first number of a location gives back its parts. -/
theorem code_parts {fp : Nat} (hasTerms isFloor : Bool) (hfp : fp < 2 ^ 62) :
    (code fp hasTerms isFloor).toNat / 4 = fp ∧
      decide ((code fp hasTerms isFloor).toNat / 2 % 2 = 1) = hasTerms ∧
      decide ((code fp hasTerms isFloor).toNat % 2 = 1) = isFloor := by
  have hterms := Bool.toNat_lt hasTerms
  have hflag := Bool.toNat_lt isFloor
  have hcode : (code fp hasTerms isFloor).toNat = 4 * fp + 2 * hasTerms.toNat + isFloor.toNat := by
    rw [code, UInt64.toNat_ofNat']
    omega
  rw [hcode]
  refine ⟨by omega, ?_, ?_⟩
  · rw [show (4 * fp + 2 * hasTerms.toNat + isFloor.toNat) / 2 = 2 * fp + hasTerms.toNat by omega,
      decide_mod_two]
  · rw [show 4 * fp + 2 * hasTerms.toNat + isFloor.toNat
      = 2 * (2 * fp + hasTerms.toNat) + isFloor.toNat by omega, decide_mod_two]

/-- **A location is read back from what the index stores.** -/
theorem decode_encode {l : Location} (h : l.Storable) : decode l.encode = .ok l := by
  obtain ⟨fp, hasTerms, isFloor, siblings⟩ := l
  obtain ⟨hfp, hsiblings, hcount, hfloor⟩ := h
  simp only at hfp hsiblings hcount hfloor
  obtain ⟨hfp', hterms', hfloor'⟩ := code_parts hasTerms isFloor hfp
  have hread : ∃ c, read (Cursor.start (encode ⟨fp, hasTerms, isFloor, siblings⟩))
      = .ok ⟨fp, hasTerms, isFloor, siblings⟩ c := by
    have hhead := takes_vlong_item (code fp hasTerms isFloor)
    rw [encode, items, Item.encodeAll_cons, Cursor.start, read]
    rw [hhead.step]
    simp only [hfp', hterms', hfloor']
    cases isFloor with
    | false =>
      obtain rfl := hfloor rfl
      exact ⟨_, rfl⟩
    | true =>
      -- each sibling takes a byte at least, so their count is not too large for what is left
      simp only [if_true, Item.encodeAll_cons]
      have hroom := length_le_siblingItems fp siblings
      have hlist := takes_readSiblings fp siblings hsiblings
      rw [(takes_nat32 hcount).step, bind_ok (show Read.remaining _ = .ok _ _ from rfl),
        if_neg (by simp only [Cursor.remaining]; omega)]
      have hend := hlist.step (fun siblings => do
        unless ← Read.atEnd do Read.corrupt .trailingOutput
        return (⟨fp, hasTerms, true, siblings⟩ : Location))
        (0 + (Item.vlong (code fp hasTerms true)).encode.length
          + (Item.nat32 siblings.length).encode.length) []
      rw [List.append_nil] at hend
      exact ⟨_, hend⟩
  obtain ⟨c, hread⟩ := hread
  rw [decode, Read.run, EStateM.run, hread]
  rfl

end Lexicon.Location
