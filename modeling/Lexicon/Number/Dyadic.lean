/-!
# Numbers with a rounded mantissa

Numbers m · 2^e whose mantissa has at most as many bits as a format keeps. `Dyadic.nearest` rounds a
quotient to the nearest of them, a tie to the one with the even mantissa.
-/

namespace Lexicon

-- Powers are the core library's also where a module brings other instances of them in.
attribute [instance (high), default_instance (high + 1)] instPowNat

/-- The number `mantissa` · 2^`exponent`. -/
structure Dyadic where
  mantissa : Nat
  exponent : Int
  deriving DecidableEq, Repr

namespace Dyadic

/-- The quotient rounded to a whole number, a half going to the even neighbour. -/
def roundDiv (num den : Nat) : Nat :=
  let q := num / den
  let r := num % den
  if den < 2 * r ∨ (2 * r = den ∧ q % 2 = 1) then q + 1 else q

/-- The quotient `num / (den · 2^e)` as a pair of whole numbers. -/
def scaled (num den : Nat) (e : Int) : Nat × Nat :=
  if 0 ≤ e then (num, den * 2 ^ e.toNat) else (num * 2 ^ (-e).toNat, den)

/-- The quotient rounded to a mantissa of `precision` bits. -/
def nearest (precision num den : Nat) : Dyadic :=
  if num = 0 then ⟨0, 0⟩
  else
    let guess : Int := (num.log2 : Int) - den.log2 - (precision - 1 : Nat)
    let (n, d) := scaled num den guess
    let e := if n < d * 2 ^ (precision - 1) then guess - 1 else guess
    let (n, d) := scaled num den e
    let m := roundDiv n d
    if m = 2 ^ precision then ⟨2 ^ (precision - 1), e + 1⟩ else ⟨m, e⟩

/-- The number divided by a whole number and rounded. -/
def divNearest (precision : Nat) (x : Dyadic) (den : Nat) : Dyadic :=
  let (n, d) := scaled x.mantissa den (-x.exponent)
  nearest precision n d

/-- The whole part. -/
def floor (x : Dyadic) : Nat :=
  if 0 ≤ x.exponent then x.mantissa * 2 ^ x.exponent.toNat
  else x.mantissa / 2 ^ (-x.exponent).toNat

end Dyadic

end Lexicon
