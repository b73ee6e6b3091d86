/-!
# Ranges of characters

A property of characters as a row of ranges of code points, the first and the last of each, in
ascending order.
-/

namespace Lexicon.Text

/-- Whether one of the ranges holds the character. -/
def inRanges (c : Char) : List (Nat × Nat) → Bool
  | [] => false
  | (first, last) :: rest => first ≤ c.toNat && (c.toNat ≤ last || inRanges c rest)

end Lexicon.Text
