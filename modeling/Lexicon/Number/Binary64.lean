import Lexicon.Number.Dyadic

/-!
# Double-precision numbers

Numbers of double precision have a mantissa of at most 53 bits and an exponent between bounds. A
mean is a quotient of two counts, rounded to double precision. It is zero or a normal number, so its
64 bits are read off the mantissa and the exponent.
-/

namespace Lexicon.Binary64

/-- Number of bits of the mantissa. -/
def precision : Nat := 53

/-- The exponent of the least number above zero. -/
def leastExponent : Int := -1074

/-- The exponent of the largest number. -/
def greatestExponent : Int := 971

/-- The quotient in double precision; zero if there is nothing to divide by. -/
def quotient (num den : Nat) : Dyadic :=
  if den = 0 then ⟨0, 0⟩ else Dyadic.nearest precision num den

/-- The quotient by a positive number in double precision, unless it is beyond the largest number.
Where 53 bits of it would go below the least exponent, fewer are kept. -/
def nearest? (num den : Nat) : Option Dyadic :=
  let x := Dyadic.nearest precision num den
  if greatestExponent < x.exponent then none
  else if x.exponent < leastExponent then
    let (n, d) := Dyadic.scaled num den leastExponent
    some ⟨Dyadic.roundDiv n d, leastExponent⟩
  else some x

/-- The product of two numbers, unless it is beyond the largest number. -/
def times? (x y : Dyadic) : Option Dyadic :=
  let (n, d) := Dyadic.scaled (x.mantissa * y.mantissa) 1 (-(x.exponent + y.exponent))
  nearest? n d

/-- The quotient by a number above zero, unless it is beyond the largest number. -/
def over? (x y : Dyadic) : Option Dyadic :=
  let (n, d) := Dyadic.scaled x.mantissa y.mantissa (y.exponent - x.exponent)
  nearest? n d

/-- The bits of a number that is zero or has a mantissa of all 53 bits. -/
def bits (x : Dyadic) : UInt64 :=
  if x.mantissa = 0 then 0
  else UInt64.ofNat ((x.exponent + 1075).toNat * 2 ^ 52 + (x.mantissa - 2 ^ 52))

end Lexicon.Binary64
