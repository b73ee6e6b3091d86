import Lexicon.Compression.Lowercase

/-!
# Which compression a block uses

The suffixes of a block are stored as they are, packed as lower-case text, or as an LZ4 block.
`compressSuffixes` decides: blocks of short suffixes or of a short common prefix are left alone, LZ4
is for long suffixes and has to save a quarter, and the packer is tried where LZ4 is not used.
-/

namespace Lexicon

/-- How the suffixes of a block are stored. -/
inductive Compression where
  | none
  | lowercase
  | lz4
  deriving DecidableEq, Repr

namespace Compression

/-- The two bits that tell the compression of a block. -/
def code : Compression → Nat
  | .none => 0
  | .lowercase => 1
  | .lz4 => 2

def ofCode (code : Nat) : Except Error Compression :=
  match code with
  | 0 => .ok .none
  | 1 => .ok .lowercase
  | 2 => .ok .lz4
  | code => .error (.corrupt (.unknownCompression code))

def name : Compression → String
  | .none => "none"
  | .lowercase => "lowercase"
  | .lz4 => "lz4"

theorem ofCode_code (c : Compression) : ofCode c.code = .ok c := by cases c <;> rfl

/-- The bytes of the given number that a payload stands for. -/
def decompress (c : Compression) (payload : Bytes) (length : Nat) : Except Error Bytes := do
  let bytes ← match c with
    | .none => pure payload
    | .lowercase => Lowercase.decompress payload length
    | .lz4 => (Lz4.decompress payload length).mapError fun fault => .corrupt (.badLz4 fault)
  if bytes.length = length then return bytes
  else throw (.corrupt (.suffixLength bytes.length length))

end Compression

/-- The compression of the suffixes of so many entries after a prefix of the given length, with the
payload; nothing where the suffixes are stored as they are. -/
def compressSuffixes (suffixes : Bytes) (entries prefixLength : Nat) :
    Option (Compression × Bytes) :=
  let size := suffixes.length
  if size ≤ 2 * entries ∨ prefixLength ≤ 2 then none
  else
    let lowercase := (Lowercase.compress suffixes).map (Compression.lowercase, ·)
    if 6 * entries < size then
      let packed := Lz4.compress suffixes
      if packed.length < size - size / 4 then some (.lz4, packed) else lowercase
    else lowercase

end Lexicon
