/-!
# Whole numbers in decimal

A whole number below a limit is written in decimal digits, of which there is at least one and among
which zeros may lead, after an optional plus sign. Of the first digit that is none and the first
digit with which the number reaches the limit, a reader complains of the one that comes first.
-/

namespace Lexicon.Text.Whole

/-- Why a text is no number. -/
inductive Fault where
  | empty
  | badDigit
  | tooLarge
  deriving DecidableEq, Repr

def Fault.message : Fault → String
  | .empty => "cannot parse integer from empty string"
  | .badDigit => "invalid digit found in string"
  | .tooLarge => "number too large to fit in target type"

/-- The number below `limit` that continues with the given digits. -/
def digits (limit : Nat) : Nat → List Char → Except Fault Nat
  | n, [] => .ok n
  | n, c :: cs =>
    if c.isDigit then
      let next := 10 * n + (c.toNat - '0'.toNat)
      if next < limit then digits limit next cs else .error .tooLarge
    else .error .badDigit

/-- Reads a number below `limit`. -/
def parse (limit : Nat) : List Char → Except Fault Nat
  | [] => .error .empty
  | ['+'] => .error .badDigit
  | '+' :: cs => digits limit 0 cs
  | cs => digits limit 0 cs

end Lexicon.Text.Whole
