import Lexicon.Bytes

/-!
# Variable-length integers

A number is written as a group of bytes that carry seven bits each, the lowest first; every byte
but the last has its high bit set. `Varint.decode` reads one group of at most as many bytes as
`width` bits can need and keeps the low `width` bits of what it spells. `Zigzag` maps signed numbers
to natural ones so that numbers of small magnitude stay small.
-/

namespace Lexicon

namespace Varint

/-- The group that spells `n`. -/
def encode (n : Nat) : Bytes :=
  if n < 128 then [UInt8.ofNat n] else UInt8.ofNat (n % 128 + 128) :: encode (n / 128)
termination_by n
decreasing_by omega

/-- The group of at most `limit` bytes at the front: the number it spells and its length. -/
def group : Nat → Bytes → Option (Nat × Nat)
  | 0, _ => none
  | _, [] => none
  | limit + 1, b :: rest =>
    if b.toNat < 128 then some (b.toNat, 1)
    else (group limit rest).map fun (high, length) => (b.toNat % 128 + 128 * high, length + 1)

/-- Number of bytes after which `width` bits are full. -/
def maxLength (width : Nat) : Nat := (width + 6) / 7

/-- The number of `width` bits at the front, and the number of bytes that spell it. Bits of the last
byte that lie beyond the width are dropped. -/
def decode (width : Nat) (bs : Bytes) : Option (Nat × Nat) :=
  (group (maxLength width) bs).map fun (n, length) => (n % 2 ^ width, length)

end Varint

namespace Zigzag

/-- Zero, minus one, one, minus two, … as zero, one, two, three, …. -/
def encode (i : Int) : Nat := if 0 ≤ i then 2 * i.toNat else 2 * (-i).toNat - 1

/-- The signed number at a place of that order. -/
def decode (n : Nat) : Int := if n % 2 = 0 then (n / 2 : Nat) else -((n / 2 + 1 : Nat) : Int)

theorem decode_encode (i : Int) : decode (encode i) = i := by
  unfold encode decode
  split <;> split <;> omega

end Zigzag

end Lexicon
