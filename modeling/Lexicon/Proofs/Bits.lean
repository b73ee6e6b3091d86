import Lexicon.Packed
import Mathlib.Tactic.Ring

/-!
# Packed bits give back their numbers

`Packed.unpack_pack`: the bits of packed bytes are the bits that were packed, followed by fewer than
eight zeros. With `Packed.ofBits_bits` every number can then be taken off the front at its own
width.
-/

namespace Lexicon.Packed

/-- A number is written with as many bits as it is given. -/
@[simp]
theorem length_bits (width n : Nat) : (bits width n).length = width := by
  induction width with
  | zero => rfl
  | succ width ih => rw [bits, List.length_cons, ih]

/-- Numbers of a width have as many bits together. -/
theorem length_flatMap_bits (width : Nat) (row : List Nat) :
    (row.flatMap (bits width)).length = row.length * width := by
  induction row with
  | nil => simp
  | cons n row ih =>
    rw [List.flatMap_cons, List.length_append, ih, length_bits, List.length_cons, Nat.succ_mul]
    omega

/-- Bits are added below those that were read. -/
theorem foldl_bits (bs : List Bool) (n : Nat) :
    bs.foldl (fun n b => 2 * n + b.toNat) n = n * 2 ^ bs.length + ofBits bs := by
  induction bs generalizing n with
  | nil => simp [ofBits]
  | cons b bs ih =>
    have hcons : ofBits (b :: bs) = b.toNat * 2 ^ bs.length + ofBits bs := by
      rw [ofBits, List.foldl_cons, ih, Nat.mul_zero, Nat.zero_add]
    rw [List.foldl_cons, ih, hcons, List.length_cons, Nat.pow_succ]
    ring

/-- The first bit is the highest. -/
theorem ofBits_cons (b : Bool) (bs : List Bool) :
    ofBits (b :: bs) = b.toNat * 2 ^ bs.length + ofBits bs := by
  rw [ofBits, List.foldl_cons, foldl_bits]
  simp

/-- Bits in front are the higher ones. -/
theorem ofBits_append (a b : List Bool) :
    ofBits (a ++ b) = ofBits a * 2 ^ b.length + ofBits b := by
  rw [ofBits, List.foldl_append, foldl_bits]
  rfl

/-- So many bits make a number below that power. -/
theorem ofBits_lt (bs : List Bool) : ofBits bs < 2 ^ bs.length := by
  induction bs with
  | nil => simp [ofBits]
  | cons b bs ih =>
    rw [ofBits_cons, List.length_cons, Nat.pow_succ]
    cases b <;> simp <;> omega

/-- The bits of a number spell it, as far as they go. -/
theorem ofBits_bits (width n : Nat) : ofBits (bits width n) = n % 2 ^ width := by
  induction width with
  | zero => simp [bits, ofBits, Nat.mod_one]
  | succ width ih =>
    rw [bits, ofBits_cons, ih, length_bits, Nat.toNat_testBit, Nat.mod_pow_succ]
    ring

/-- A number is written by its low bits alone. -/
theorem bits_congr : ∀ {width n m : Nat}, (∀ i < width, n.testBit i = m.testBit i) →
    bits width n = bits width m := by
  intro width
  induction width with
  | zero => intro n m _; rfl
  | succ width ih =>
    intro n m h
    rw [bits, bits, h width (by omega), ih fun i hi => h i (by omega)]

/-- As many bits as a number was spelled from are those bits. -/
theorem bits_ofBits (bs : List Bool) : bits bs.length (ofBits bs) = bs := by
  induction bs with
  | nil => rfl
  | cons b bs ih =>
    have hlt := ofBits_lt bs
    have htop : (ofBits (b :: bs)).testBit bs.length = b := by
      rw [ofBits_cons, Nat.mul_comm, Nat.testBit_two_pow_mul_add _ hlt]
      cases b <;> simp
    have hlow : bits bs.length (ofBits (b :: bs)) = bits bs.length (ofBits bs) := by
      refine bits_congr fun i hi => ?_
      rw [ofBits_cons, Nat.mul_comm, Nat.testBit_two_pow_mul_add _ hlt, if_pos hi]
    rw [List.length_cons, bits, htop, hlow, ih]

/-- Bits that are all off make zero. -/
theorem ofBits_replicate_false (n : Nat) : ofBits (List.replicate n false) = 0 := by
  induction n with
  | zero => rfl
  | succ n ih => rw [List.replicate_succ, ofBits_cons, ih]; simp

/-- The bits of a byte are those that it was made of, then zeros. -/
theorem bits_byte {bs : List Bool} (h : bs.length ≤ 8) :
    bits 8 (byte bs).toNat = bs ++ List.replicate (8 - bs.length) false := by
  have hzeros : ofBits (bs ++ List.replicate (8 - bs.length) false)
      = ofBits bs * 2 ^ (8 - bs.length) := by
    rw [ofBits_append, ofBits_replicate_false, List.length_replicate, Nat.add_zero]
  have hlength : (bs ++ List.replicate (8 - bs.length) false).length = 8 := by
    rw [List.length_append, List.length_replicate]
    omega
  have hlt := ofBits_lt (bs ++ List.replicate (8 - bs.length) false)
  rw [hlength] at hlt
  have hback := bits_ofBits (bs ++ List.replicate (8 - bs.length) false)
  rw [hlength] at hback
  rw [byte, UInt8.toNat_ofNat', ← hzeros, Nat.mod_eq_of_lt hlt, hback]

/-- Eight bits make a byte, and what is left makes one more. -/
theorem length_pack (bs : List Bool) : (pack bs).length = (bs.length + 7) / 8 := by
  induction hn : bs.length using Nat.strongRecOn generalizing bs with
  | ind n ih =>
    rw [pack]
    split
    next hnil =>
      rw [List.isEmpty_iff] at hnil
      subst hnil
      subst hn
      rfl
    next hne =>
      have hpos : 0 < bs.length := by
        cases bs with
        | nil => simp at hne
        | cons b bs => simp
      rw [List.length_cons, ih (bs.drop 8).length (by rw [List.length_drop]; omega) _ rfl,
        List.length_drop]
      omega

/-- The bits of packed bytes are the bits that were packed, filled up with zeros. -/
theorem unpack_pack (bs : List Bool) :
    unpack (pack bs) = bs ++ List.replicate ((bs.length + 7) / 8 * 8 - bs.length) false := by
  induction hn : bs.length using Nat.strongRecOn generalizing bs with
  | ind n ih =>
    rw [pack]
    split
    next hnil =>
      rw [List.isEmpty_iff] at hnil
      subst hnil
      subst hn
      rfl
    next hne =>
      have hpos : 0 < bs.length := by
        cases bs with
        | nil => simp at hne
        | cons b bs => simp
      have htake : (bs.take 8).length ≤ 8 := by
        rw [List.length_take]
        omega
      have hrest := ih (bs.drop 8).length (by rw [List.length_drop]; omega) _ rfl
      rw [unpack] at hrest
      rw [unpack, List.flatMap_cons, bits_byte htake, hrest]
      rcases Nat.lt_or_ge bs.length 8 with hlt | hge
      · -- the last byte is filled up
        have hdrop : bs.drop 8 = [] := List.drop_eq_nil_of_le (by omega)
        have hfull : bs.take 8 = bs := List.take_of_length_le (by omega)
        rw [hdrop, hfull]
        simp only [List.length_nil, List.nil_append, Nat.zero_add]
        rw [show (7 / 8 * 8 - 0 : Nat) = 0 from rfl, List.replicate_zero, List.append_nil, ← hn,
          show (bs.length + 7) / 8 * 8 - bs.length = 8 - bs.length by omega]
      · -- a full byte, and what fills up the rest fills up the whole
        have height : (bs.take 8).length = 8 := by
          rw [List.length_take]
          omega
        rw [height, Nat.sub_self, List.replicate_zero, List.append_nil, ← List.append_assoc,
          List.take_append_drop, List.length_drop, hn]
        congr 2
        omega

/-- A number is taken off the front of the bits at its width. -/
theorem take_bits {width n : Nat} (hwidth : width ≤ 64) (hn : n < 2 ^ width) (rest : List Bool) :
    take width (bits width n ++ rest) = .ok n rest := by
  have hfront : (bits width n ++ rest).take width = bits width n :=
    List.take_left' (length_bits width n)
  have hback : (bits width n ++ rest).drop width = rest :=
    List.drop_left' (length_bits width n)
  have hsmall : n < 2 ^ 64 := Nat.lt_of_lt_of_le hn (Nat.pow_le_pow_right (by omega) hwidth)
  simp only [take, hfront, hback, length_bits, if_true]
  rw [ofBits_bits, Nat.mod_eq_of_lt hn, Nat.mod_eq_of_lt hsmall]

/-- A number has the bits that it requires. -/
theorem lt_two_pow_bitsRequired (n : Nat) : n < 2 ^ bitsRequired n := by
  unfold bitsRequired
  split
  next h => subst h; decide
  next => exact Nat.lt_log2_self

/-- A number requires no more bits than it has. -/
theorem bitsRequired_le {n width : Nat} (hwidth : 0 < width) (hn : n < 2 ^ width) :
    bitsRequired n ≤ width := by
  unfold bitsRequired
  split
  next => omega
  next hne =>
    have := (Nat.log2_lt hne).2 hn
    omega

end Lexicon.Packed
