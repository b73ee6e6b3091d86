/-!
# Hexadecimal text

Numbers and bytes in lower-case hexadecimal digits, with no more digits than asked for and needed.
-/

namespace Lexicon.Text.Hex

/-- The digit of a number below sixteen. -/
def digit (n : Nat) : Char :=
  if n < 10 then Char.ofNat (48 + n) else Char.ofNat (87 + n)

/-- The digits of a number, zero having one. -/
def ofNat (n : Nat) : String := String.ofList (Nat.toDigits 16 n)

/-- The digits of a number, led by zeros up to `width`. -/
def padded (width n : Nat) : String :=
  let digits := Nat.toDigits 16 n
  String.ofList (List.replicate (width - digits.length) '0' ++ digits)

/-- Two digits for every byte. -/
def ofBytes (bs : List UInt8) : String :=
  bs.foldl (fun s b => (s.push (digit (b.toNat / 16))).push (digit (b.toNat % 16))) ""

end Lexicon.Text.Hex
