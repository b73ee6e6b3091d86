/-!
# Byte strings

Keys, outputs, streams and every other stored value are strings of bytes, kept as lists so that a
reader is a recursion on the data. Their order is the list order on bytes: the first difference
decides, and a string sorts before its extensions. The module also holds the little-endian
words of a fixed width and the length that two strings have in common.
-/

namespace Lexicon

-- Powers are the core library's also where a module brings other instances of them in.
attribute [instance (high), default_instance (high + 1)] instPowNat

/-- A string of bytes. -/
abbrev Bytes := List UInt8

namespace Bytes

/-- Number of leading bytes on which two strings agree. -/
def agreement : Bytes → Bytes → Nat
  | x :: xs, y :: ys => if x = y then agreement xs ys + 1 else 0
  | _, _ => 0

/-- The `width` low bytes of a number, the lowest first. -/
def littleEndian : Nat → Nat → Bytes
  | 0, _ => []
  | width + 1, n => UInt8.ofNat n :: littleEndian width (n / 256)

/-- The number whose bytes are given lowest first. -/
def ofLittleEndian : Bytes → Nat
  | [] => 0
  | b :: rest => b.toNat + 256 * ofLittleEndian rest

/-- The bytes of a text. -/
def ofString (s : String) : Bytes := s.toUTF8.toList

/-- The bytes as one packed array. -/
def toByteArray (bs : Bytes) : ByteArray := ⟨bs.toArray⟩

theorem length_littleEndian (width n : Nat) : (littleEndian width n).length = width := by
  induction width generalizing n with
  | zero => rfl
  | succ width ih => simp [littleEndian, ih]

/-- Reading back the bytes of a number gives the number, up to the width. -/
theorem ofLittleEndian_littleEndian (width n : Nat) :
    ofLittleEndian (littleEndian width n) = n % 256 ^ width := by
  induction width generalizing n with
  | zero => simp [littleEndian, ofLittleEndian, Nat.mod_one]
  | succ width ih =>
    rw [littleEndian, ofLittleEndian, ih, Nat.pow_succ', Nat.mod_mul]
    simp

end Bytes

end Lexicon
