import Lexicon.Text.Hex
import Lexicon.Text.Utf8

/-!
# Bytes shown to a reader

A byte string that spells a text is shown as that text. Any other is shown in ASCII, where a byte
that is no printable character is written by its two hexadecimal digits.
-/

namespace Lexicon.Text

/-- One byte in ASCII. -/
def showByte (b : UInt8) : String :=
  if b = 0x09 then "\\t"
  else if b = 0x0D then "\\r"
  else if b = 0x0A then "\\n"
  else if b = 0x27 then "\\'"
  else if b = 0x22 then "\\\""
  else if b = 0x5C then "\\\\"
  else if 0x20 ≤ b ∧ b ≤ 0x7E then String.singleton (Char.ofNat b.toNat)
  else "\\x" ++ Hex.padded 2 b.toNat

/-- A byte string for a reader. -/
def shown (bs : Bytes) : String :=
  match Utf8.decode bs with
  | .ok text => text
  | .error _ => bs.foldl (fun s b => s ++ showByte b) ""

end Lexicon.Text
