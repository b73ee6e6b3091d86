import Lexicon.Number.Dyadic

/-!
# Single-precision numbers

The 32 bits of a single-precision number and the two things that a linear estimate asks of them: the
slope between two points, and the whole part of the slope times an index.
-/

namespace Lexicon

namespace Binary32

/-- The bits of a number that is zero or lies between the least normal number and the largest. -/
def ofDyadic (x : Dyadic) : UInt32 :=
  if x.mantissa = 0 then 0
  else UInt32.ofNat ((x.exponent + 150).toNat * 2 ^ 23 + (x.mantissa - 2 ^ 23))

/-- The slope `span / steps`: taken between double-precision numbers, then rounded to single
precision. -/
def slope (span steps : Nat) : UInt32 :=
  -- rounded three times, as the span, the quotient and its conversion are
  let wide := (Dyadic.nearest 53 span 1).divNearest 53 steps
  ofDyadic (wide.divNearest 24 1)

/-- A number kept between the bounds of signed 64-bit integers. -/
def saturate (i : Int) : Int := max (-2 ^ 63) (min i (2 ^ 63 - 1))

/-- The whole part, toward zero, of the product with an index below 2^24, rounded to single
precision and kept between the bounds of signed 64-bit integers. Where there is no product it is
zero. -/
def timesIndex (number : UInt32) (index : Nat) : Int :=
  let n := number.toNat
  let exponent : Nat := n / 2 ^ 23 % 256
  let fraction : Nat := n % 2 ^ 23
  let magnitude : Int :=
    if exponent = 255 then if fraction ≠ 0 ∨ index = 0 then 0 else 2 ^ 63
    else
      let x : Dyadic := if exponent = 0 then ⟨fraction, -149⟩
        else ⟨fraction + 2 ^ 23, (exponent : Int) - 150⟩
      let product := Dyadic.nearest 24 (x.mantissa * index) 1
      Dyadic.floor ⟨product.mantissa, product.exponent + x.exponent⟩
  saturate (if n < 2 ^ 31 then magnitude else -magnitude)

end Binary32

end Lexicon
