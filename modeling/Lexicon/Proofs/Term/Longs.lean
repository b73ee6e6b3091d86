import Lexicon.Proofs.Reading
import Lexicon.Term.Longs

/-!
# The numbers of terms are read back

A number is the sum of the one before it and the difference that was stored, whatever the sign and
size of that difference, because all of it is modulo 2^64 (`decodeLong_encodeLong`). So a reader
whose codec equals the writer's takes back every term (`takes_read`), and an absolute term needs no
agreement at all: both sides start from nothing.
-/

namespace Lexicon

/-- A word taken as signed has 63 bits and a sign. -/
theorem signedWord_bounds (w : UInt64) : -2 ^ 63 ≤ signedWord w ∧ signedWord w < 2 ^ 63 := by
  have hpos : 0 < 2 ^ 64 := Nat.two_pow_pos 64
  have hlow := Int.le_bmod (x := w.toNat) hpos
  have hhigh := Int.bmod_lt (x := w.toNat) hpos
  unfold signedWord
  omega

/-- A word taken as signed is the same modulo 2^64. -/
theorem signedWord_emod (w : UInt64) : signedWord w % 2 ^ 64 = w.toNat := by
  have hlt := w.toNat_lt
  unfold signedWord
  rw [Int.bmod_def]
  split <;> omega

/-- A word taken as signed is the same word. -/
theorem ofInt_signedWord (w : UInt64) : UInt64.ofInt (signedWord w) = w := by
  have hword : UInt64.ofInt (signedWord w) = UInt64.ofNat (signedWord w % 2 ^ 64).toNat := rfl
  rw [hword, signedWord_emod, Int.toNat_natCast, UInt64.ofNat_toNat]

/-- A signed number of 64 bits is folded into 64 bits. -/
theorem Zigzag.encode_lt {i : Int} (hlow : -2 ^ 63 ≤ i) (hhigh : i < 2 ^ 63) :
    Zigzag.encode i < 2 ^ 64 := by
  unfold Zigzag.encode
  split <;> omega

namespace LongsCodec

open Read

/-- A long is restored from its difference, also where this wraps around. -/
theorem decodeLong_encodeLong (previous : Option UInt64) (value : UInt64) :
    decodeLong previous (encodeLong previous value) = value := by
  cases previous with
  | none => rfl
  | some p =>
    obtain ⟨hlow, hhigh⟩ := signedWord_bounds (value - p)
    have hlt := Zigzag.encode_lt hlow hhigh
    rw [encodeLong, decodeLong, UInt64.toNat_ofNat', Nat.mod_eq_of_lt hlt, Zigzag.decode_encode,
      ofInt_signedWord, UInt64.add_comm, UInt64.sub_add_cancel]

/-- As many longs are read as were written. -/
theorem takes_readLongs (longs : List UInt64) :
    ∀ previous : List UInt64,
      Takes (readLongs previous longs.length) (Item.encodeAll (longItems previous longs))
        longs := by
  induction longs with
  | nil => intro previous; exact takes_pure _
  | cons value longs ih =>
    intro previous
    have hvalue : decodeLong previous.head?
        (UInt64.ofNat (encodeLong previous.head? value).toNat) = value := by
      rw [UInt64.ofNat_toNat, decodeLong_encodeLong]
    rw [longItems, Item.encodeAll_cons, List.length_cons, readLongs]
    refine (takes_vlong_item _).bind ?_
    simp only [hvalue]
    exact (ih previous.tail).bind_pure (f := (value :: ·))

/-- Each long takes a byte at least. -/
theorem length_le_longItems (longs : List UInt64) :
    ∀ previous : List UInt64,
      longs.length ≤ (Item.encodeAll (longItems previous longs)).length := by
  induction longs with
  | nil => intro previous; exact Nat.zero_le _
  | cons value longs ih =>
    intro previous
    have hpos : 0 < (Item.vlong (encodeLong previous.head? value)).encode.length :=
      List.length_pos_iff.mpr (Varint.encode_ne_nil _)
    have := ih previous.tail
    rw [longItems, Item.encodeAll_cons, List.length_append, List.length_cons]
    omega

/-- **A term's numbers are read back** by a codec that remembers the same term. -/
theorem takes_read (c : LongsCodec) (absolute : Bool) {longs : List UInt64}
    (hlength : longs.length < 2 ^ 32) :
    Takes (c.read absolute) (Item.encodeAll (c.encode absolute longs).1) longs := by
  have hcount := length_le_longItems longs (c.before absolute).last
  rw [encode, Item.encodeAll_cons, read]
  refine (takes_nat32 hlength).bind ?_
  intro position rest
  rw [bind_ok (show Read.remaining _ = .ok _ _ from rfl)]
  rw [if_neg (by simp only [Cursor.remaining, List.length_append]; omega)]
  exact takes_readLongs longs (c.before absolute).last position rest

/-- The longs of a term are read back, and both codecs remember the same. -/
theorem decode_encode (c : LongsCodec) (absolute : Bool) {longs : List UInt64}
    (hlength : longs.length < 2 ^ 32) (position : Nat) (rest : Bytes) :
    c.decode absolute ⟨position, Item.encodeAll (c.encode absolute longs).1 ++ rest⟩
      = (.ok longs, (c.encode absolute longs).2,
        ⟨position + (Item.encodeAll (c.encode absolute longs).1).length, rest⟩) := by
  rw [decode, takes_read c absolute hlength position rest]
  rfl

end LongsCodec

end Lexicon
