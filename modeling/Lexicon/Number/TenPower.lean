import Lexicon.Number.Binary64

/-!
# Numbers times a power of ten

A double-precision number is multiplied or divided by the double-precision number nearest to a
power of ten, and the result is rounded again. It need not be the nearest to the exact one. Powers
above the largest one that there is are divided by in several steps.
-/

namespace Lexicon.Binary64

/-- The exponent of the largest power of ten in double precision. -/
def greatestTenPower : Nat := 308

/-- The number nearest to 10^p, for p up to the greatest. -/
def tenPower (p : Nat) : Dyadic := Dyadic.nearest precision (10 ^ p) 1

/-- The number times 10^p, unless that is beyond the largest number. -/
def timesTenPower? (x : Dyadic) (p : Nat) : Option Dyadic :=
  if p ≤ greatestTenPower then times? x (tenPower p)
  else if x.mantissa = 0 then some x
  else none

/-- The number divided by 10^p: by the greatest power as long as p is above it and something is left
to divide. -/
def overTenPower? (x : Dyadic) (p : Nat) : Option Dyadic :=
  if p ≤ greatestTenPower then over? x (tenPower p)
  else if x.mantissa = 0 then some x
  else (over? x (tenPower greatestTenPower)).bind fun y => overTenPower? y (p - greatestTenPower)
termination_by p
decreasing_by simp only [greatestTenPower] at *; omega

/-- The whole number `n` in double precision times 10^`power`, unless that is beyond the largest
number. -/
def scaledByTen? (n : Nat) (power : Int) : Option Dyadic :=
  let x := Dyadic.nearest precision n 1
  if 0 ≤ power then timesTenPower? x power.toNat else overTenPower? x (-power).toNat

end Lexicon.Binary64
