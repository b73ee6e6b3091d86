import Lexicon.Error

/-!
# Block sizes

How many entries a run of terms with a common prefix needs to become a block of its own, and how
many a block may hold before the run is split.
-/

namespace Lexicon

/-- Least and largest number of entries of a block. -/
structure BlockSizes where
  min : Nat := 25
  max : Nat := 48
  deriving DecidableEq, Repr, Inhabited

namespace BlockSizes

/-- A run that is split has parts of at least `min` entries, so `max` leaves room for two. -/
def check (s : BlockSizes) : Except Error Unit :=
  if s.min ≤ 1 then .error (.invalidConfig (.minTooSmall s.min))
  else if s.max < s.min then .error (.invalidConfig (.maxBelowMin s.min s.max))
  else if s.max / 2 < s.min - 1 then .error (.invalidConfig (.maxBelowTwiceMin s.min s.max))
  else .ok ()

/-- Sizes that can be used. -/
def new (min max : Nat) : Except Error BlockSizes := do
  let sizes : BlockSizes := { min, max }
  sizes.check
  return sizes

end BlockSizes

end Lexicon
