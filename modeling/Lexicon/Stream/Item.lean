import Lexicon.Varint

/-!
# What streams are made of

Every format of a segment is a row of items: single bytes, byte strings, numbers of a fixed or a
variable length, and byte strings that follow their length. `Item.encode` gives the bytes of an
item; `Item.pieces` gives the same bytes in the portions in which they go to a sink, one write each.
-/

namespace Lexicon

/-- One element of a format. -/
inductive Item where
  | byte (b : UInt8)
  | bytes (bs : Bytes)
  /-- A variable-length number of 32 bits. -/
  | vint (n : UInt32)
  /-- A variable-length number of 64 bits. -/
  | vlong (n : UInt64)
  /-- A little-endian number of 32 bits. -/
  | u32 (n : UInt32)
  /-- A little-endian number of 64 bits. -/
  | u64 (n : UInt64)
  /-- A byte string after its length. -/
  | block (bs : Bytes)
  deriving DecidableEq, Repr

namespace Item

/-- The number, of as many bits as fit, as a variable-length number of 32 bits. -/
def nat32 (n : Nat) : Item := .vint (UInt32.ofNat n)

/-- The number, of as many bits as fit, as a variable-length number of 64 bits. -/
def nat64 (n : Nat) : Item := .vlong (UInt64.ofNat n)

/-- A byte string after its length. -/
def text (s : String) : Item := .block (Bytes.ofString s)

/-- The bytes of an item. -/
def encode : Item → Bytes
  | .byte b => [b]
  | .bytes bs => bs
  | .vint n => Varint.encode n.toNat
  | .vlong n => Varint.encode n.toNat
  | .u32 n => Bytes.littleEndian 4 n.toNat
  | .u64 n => Bytes.littleEndian 8 n.toNat
  | .block bs => Varint.encode (UInt32.ofNat bs.length).toNat ++ bs

/-- The portions in which an item is written: a length and what it measures are two. -/
def pieces : Item → List Bytes
  | .block bs => [Varint.encode (UInt32.ofNat bs.length).toNat, bs]
  | item => [item.encode]

/-- The bytes of a row of items. -/
def encodeAll (items : List Item) : Bytes := items.flatMap encode

theorem flatten_pieces (item : Item) : item.pieces.flatten = item.encode := by
  cases item <;> simp [pieces, encode]

theorem encodeAll_append (a b : List Item) : encodeAll (a ++ b) = encodeAll a ++ encodeAll b := by
  simp [encodeAll]

end Item

end Lexicon
