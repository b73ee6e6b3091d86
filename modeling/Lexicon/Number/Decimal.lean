import Lexicon.Number.Binary64

/-!
# Decimal text of numbers

Two ways to write a double-precision number in decimal. `Decimal.fixed` gives its exact value
rounded to a number of places. `Decimal.shortest` gives the fewest digits that no other
double-precision number is nearer to: for 1, 2, … 17 digits it tests the two neighbours of the
number on the grid of decimals with that many digits, and takes the first grid that has one, of two
the nearer.
-/

namespace Lexicon

/-- The number `digits` · 10^`exponent`. -/
structure Decimal where
  digits : Nat
  exponent : Int
  deriving DecidableEq, Repr

namespace Decimal

/-- Compares a · 10^p with b · 2^q. -/
def compareBinary (a : Nat) (p : Int) (b : Nat) (q : Int) : Ordering :=
  compare (a * 10 ^ p.toNat * 2 ^ (-q).toNat) (b * 2 ^ q.toNat * 10 ^ (-p).toNat)

/-- Whether the number is the double-precision number nearest to the decimal. A tie goes to the
even mantissa, so the bounds count if the mantissa is even. Below a power of two the numbers lie
twice as close, unless their exponent is already the least one. -/
def readsBack (x : Dyadic) (d : Decimal) : Bool :=
  let even := x.mantissa % 2 = 0
  let closer := x.mantissa = 2 ^ (Binary64.precision - 1) ∧ Binary64.leastExponent < x.exponent
  -- the middles between the number and its two neighbours, in quarters of its last place
  let low := 4 * x.mantissa - (if closer then 1 else 2)
  let high := 4 * x.mantissa + 2
  let above := compareBinary d.digits d.exponent low (x.exponent - 2)
  let below := compareBinary d.digits d.exponent high (x.exponent - 2)
  (above = .gt || (above = .eq && even)) && (below = .lt || (below = .eq && even))

/-- The decimal exponent of the first digit of a positive quotient. -/
def leading (num den : Nat) : Int :=
  if den ≤ num then (Nat.toDigits 10 (num / den)).length - 1
  else -((Nat.toDigits 10 ((den - 1) / num)).length : Int)

/-- The number `digits` · 10^p; ten of them are one of the next power. -/
def tens (digits : Nat) (p : Int) : Decimal := if digits = 10 then ⟨1, p + 1⟩ else ⟨digits, p⟩

/-- The neighbour, if any, on the grid of 10^p that reads back, the nearer of two. -/
def onGrid (x : Dyadic) (p : Int) : Option Decimal :=
  let num := x.mantissa * 2 ^ x.exponent.toNat * 10 ^ (-p).toNat
  let den := 2 ^ (-x.exponent).toNat * 10 ^ p.toNat
  let lower := tens (num / den) p
  let upper := tens (num / den + 1) p
  let (first, second) :=
    if Dyadic.roundDiv num den = num / den then (lower, upper) else (upper, lower)
  if readsBack x first then some first else if readsBack x second then some second else none

/-- The shortest decimal of a number that reads back as it. -/
def shortest (x : Dyadic) : Decimal :=
  if x.mantissa = 0 then ⟨0, 0⟩
  else
    let top := leading (x.mantissa * 2 ^ x.exponent.toNat) (2 ^ (-x.exponent).toNat)
    let found := (List.range 17).findSome? fun k : Nat => onGrid x (top - k)
    -- seventeen digits always tell double-precision numbers apart, so one is found
    found.getD ⟨x.mantissa * 2 ^ x.exponent.toNat, 0⟩

/-- The number with a point and at least one digit on either side of it. -/
def positional (d : Decimal) : String :=
  let digits := Nat.toDigits 10 d.digits
  let zeros (n : Nat) := List.replicate n '0'
  let point := digits.length + d.exponent
  String.ofList <|
    if 0 ≤ d.exponent then digits ++ zeros d.exponent.toNat ++ ['.', '0']
    else if 0 < point then digits.take point.toNat ++ ['.'] ++ digits.drop point.toNat
    else ['0', '.'] ++ zeros (-point).toNat ++ digits

/-- The number with one digit before the point, if there is any after it, and a power of ten, whose
sign is written in any case. -/
def scientific (d : Decimal) : String :=
  let digits := Nat.toDigits 10 d.digits
  let fraction := if digits.length = 1 then [] else '.' :: digits.drop 1
  let power := d.exponent + digits.length - 1
  let sign := if power < 0 then '-' else '+'
  String.ofList (digits.take 1 ++ fraction ++ ['e', sign] ++ Nat.toDigits 10 power.natAbs)

/-- The text of a number: with a power of ten if it is 10^16 or more or less than 10^-5. -/
def text (d : Decimal) : String :=
  let point := (Nat.toDigits 10 d.digits).length + d.exponent
  if d.digits = 0 ∨ (-5 < point ∧ point ≤ 16) then d.positional else d.scientific

/-- The exact value of a number rounded to `places` digits after the point, of which there is at
least one, a half going to the even neighbour. -/
def fixed (places : Nat) (x : Dyadic) : String :=
  let rounded := Dyadic.roundDiv (x.mantissa * 10 ^ places * 2 ^ x.exponent.toNat)
    (2 ^ (-x.exponent).toNat)
  let digits := Nat.toDigits 10 rounded
  let padded := List.replicate (places + 1 - digits.length) '0' ++ digits
  let whole := padded.length - places
  String.ofList (padded.take whole ++ ['.'] ++ padded.drop whole)

end Decimal

end Lexicon
