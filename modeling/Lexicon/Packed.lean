import Lexicon.Bytes
import Lexicon.Error

/-!
# Packed bits

Numbers of any width, one after the other, the highest bit of each first. The bits of a row of
numbers are the numbers' bits put together; eight at a time they make bytes, the last byte
being filled up with zero bits.
-/

namespace Lexicon.Packed

/-- The `width` low bits of a number, the highest first. -/
def bits : Nat → Nat → List Bool
  | 0, _ => []
  | width + 1, n => n.testBit width :: bits width n

/-- The number that bits spell, the highest first. -/
def ofBits (bs : List Bool) : Nat := bs.foldl (fun n b => 2 * n + b.toNat) 0

/-- The byte of at most eight bits, filled up with zeros. -/
def byte (bs : List Bool) : UInt8 := UInt8.ofNat (ofBits bs * 2 ^ (8 - bs.length))

/-- The bytes of a row of bits. -/
def pack (bs : List Bool) : Bytes :=
  if bs.isEmpty then [] else byte (bs.take 8) :: pack (bs.drop 8)
termination_by bs.length
decreasing_by
  cases bs with
  | nil => simp at *
  | cons b bs => simp only [List.length_drop, List.length_cons]; omega

/-- The bits of a row of bytes. -/
def unpack (bs : Bytes) : List Bool := bs.flatMap fun b => bits 8 b.toNat

/-- The bytes of a row of numbers of given widths. -/
def encode (row : List (Nat × Nat)) : Bytes := pack (row.flatMap fun (n, width) => bits width n)

/-- Takes a number of the given width off a row of bits. Where too few are left, all are
taken. -/
def take (width : Nat) : EStateM Error (List Bool) Nat := fun bs =>
  let front := bs.take width
  if front.length = width then .ok (ofBits front % 2 ^ 64) (bs.drop width)
  else .error (.corrupt .packedTruncated) []

/-- Number of bits that a number needs; zero needs one. -/
def bitsRequired (n : Nat) : Nat := if n = 0 then 1 else n.log2 + 1

/-- Number of bytes that `count` numbers of one width fill. -/
def length (count width : Nat) : Nat := (count * width + 7) / 8

end Lexicon.Packed
