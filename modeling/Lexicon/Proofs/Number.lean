import Lexicon.Number.Binary32
import Mathlib.Tactic.Ring

/-!
# Rounded numbers keep their order

What a linear estimate needs of single-precision arithmetic is little: a larger index never gives a
smaller estimate, and the slope between two numbers of 63 bits is neither negative nor infinite.
Both follow from how a mantissa is found, without regard to how good the approximation is.

> **`Binary32.timesIndex_mono`** — estimates keep the order of the indexes;
> **`Binary32.slope_lt`** — the slope of a row that grows is not negative.
-/

namespace Lexicon

namespace Dyadic

/-- A rounded quotient is not below the whole quotient. -/
theorem div_le_roundDiv (num den : Nat) : num / den ≤ roundDiv num den := by
  rw [roundDiv]
  split
  · exact Nat.le_succ _
  · exact Nat.le_refl _

/-- A rounded quotient is at most one above the whole quotient. -/
theorem roundDiv_le_succ (num den : Nat) : roundDiv num den ≤ num / den + 1 := by
  rw [roundDiv]
  split
  · exact Nat.le_refl _
  · exact Nat.le_succ _

/-- A greater numerator has no smaller rounded quotient. -/
theorem roundDiv_mono {num num' : Nat} (den : Nat) (h : num ≤ num') :
    roundDiv num den ≤ roundDiv num' den := by
  rcases Nat.lt_or_eq_of_le (Nat.div_le_div_right (c := den) h) with hlt | heq
  · calc roundDiv num den ≤ num / den + 1 := roundDiv_le_succ ..
      _ ≤ num' / den := hlt
      _ ≤ roundDiv num' den := div_le_roundDiv ..
  · -- With one quotient, the larger remainder is rounded up if the smaller is.
    have hnum := Nat.div_add_mod num den
    have hnum' := Nat.div_add_mod num' den
    rw [heq] at hnum
    rw [roundDiv, roundDiv, heq]
    split
    · split
      · exact Nat.le_refl _
      · have := Nat.mod_lt num' (y := den)
        omega
    · split <;> omega

/-- A rounded quotient keeps to a whole bound. -/
theorem roundDiv_le {num den bound : Nat} (hden : 0 < den) (h : num ≤ den * bound) :
    roundDiv num den ≤ bound := by
  have hmono := roundDiv_mono den h
  have hexact : roundDiv (den * bound) den = bound := by
    rw [roundDiv, Nat.mul_div_cancel_left _ hden, Nat.mul_mod_right]
    rw [if_neg (by omega)]
  omega

/-- A greater mantissa has no smaller whole part. -/
theorem floor_mono {m m' : Nat} (e : Int) (h : m ≤ m') : floor ⟨m, e⟩ ≤ floor ⟨m', e⟩ := by
  rw [floor, floor]
  simp only
  split
  · exact Nat.mul_le_mul_right _ h
  · exact Nat.div_le_div_right h

/-- Powers of two can be moved from the exponent into the mantissa. -/
theorem floor_shift (m k : Nat) (e : Int) : floor ⟨m * 2 ^ k, e⟩ = floor ⟨m, e + k⟩ := by
  rw [floor, floor]
  simp only
  by_cases he : 0 ≤ e
  · rw [if_pos he, if_pos (by omega), Nat.mul_assoc, ← Nat.pow_add]
    congr 2
    omega
  · rw [if_neg he]
    by_cases hk : 0 ≤ e + k
    · rw [if_pos hk]
      have hsplit : k = (e + k).toNat + (-e).toNat := by omega
      have hpow : m * 2 ^ k = m * 2 ^ (e + k).toNat * 2 ^ (-e).toNat := by
        rw [Nat.mul_assoc, ← Nat.pow_add, ← hsplit]
      rw [hpow, Nat.mul_div_cancel _ (Nat.two_pow_pos _)]
    · rw [if_neg hk]
      have hsplit : (-e).toNat = k + (-(e + k)).toNat := by omega
      rw [hsplit, Nat.pow_add, ← Nat.div_div_eq_div_mul, Nat.mul_div_cancel _ (Nat.two_pow_pos _)]

/-! ## Whole numbers -/

/-- A whole number rounded to `bits + 1` bits. -/
def roundWhole (bits n : Nat) : Nat := roundDiv n (2 ^ (n.log2 - bits)) * 2 ^ (n.log2 - bits)

/-- A greater number is not rounded to a smaller one. -/
theorem roundWhole_mono (bits : Nat) {n n' : Nat} (h : n ≤ n') :
    roundWhole bits n ≤ roundWhole bits n' := by
  by_cases hzero : n = 0
  · subst hzero
    have hround : roundWhole bits 0 = 0 := by
      rw [roundWhole, Nat.log2_zero, Nat.zero_sub]
      rfl
    rw [hround]
    exact Nat.zero_le _
  -- numbers of one length are rounded at one place; those of different lengths have a power of two
  -- between them, which neither is rounded past
  have hn := Nat.lt_log2_self (n := n)
  have hn' := Nat.log2_self_le (n := n') (by omega)
  have hlog : n.log2 ≤ n'.log2 := by
    refine Nat.le_of_not_lt fun hlt => ?_
    have hpow : 2 ^ (n'.log2 + 1) ≤ 2 ^ n.log2 := Nat.pow_le_pow_right (by omega) hlt
    have hself := Nat.log2_self_le hzero
    have := Nat.lt_log2_self (n := n')
    omega
  rcases Nat.lt_or_eq_of_le hlog with hlt | heq
  · -- The smaller number is rounded to at most the power of two that the larger reaches.
    have hbelow : roundWhole bits n ≤ 2 ^ (n.log2 + 1) := by
      have hsplit : n.log2 + 1 = (n.log2 - bits) + (n.log2 + 1 - (n.log2 - bits)) := by omega
      have hround : roundDiv n (2 ^ (n.log2 - bits)) ≤ 2 ^ (n.log2 + 1 - (n.log2 - bits)) := by
        refine roundDiv_le (Nat.two_pow_pos _) ?_
        rw [← Nat.pow_add, ← hsplit]
        exact Nat.le_of_lt hn
      calc roundWhole bits n
          ≤ 2 ^ (n.log2 + 1 - (n.log2 - bits)) * 2 ^ (n.log2 - bits) :=
            Nat.mul_le_mul_right _ hround
        _ = 2 ^ (n.log2 + 1) := by rw [Nat.mul_comm, ← Nat.pow_add, ← hsplit]
    have habove : 2 ^ n'.log2 ≤ roundWhole bits n' := by
      have hsplit : n'.log2 = (n'.log2 - (n'.log2 - bits)) + (n'.log2 - bits) := by omega
      have hquotient : 2 ^ (n'.log2 - (n'.log2 - bits)) ≤ n' / 2 ^ (n'.log2 - bits) := by
        rw [Nat.le_div_iff_mul_le (Nat.two_pow_pos _), ← Nat.pow_add, ← hsplit]
        exact hn'
      calc 2 ^ n'.log2
          = 2 ^ (n'.log2 - (n'.log2 - bits)) * 2 ^ (n'.log2 - bits) := by
            rw [← Nat.pow_add, ← hsplit]
        _ ≤ roundWhole bits n' :=
          Nat.mul_le_mul_right _ (Nat.le_trans hquotient (div_le_roundDiv ..))
    have hpow : 2 ^ (n.log2 + 1) ≤ 2 ^ n'.log2 := Nat.pow_le_pow_right (by omega) hlt
    omega
  · rw [roundWhole, roundWhole, heq]
    exact Nat.mul_le_mul_right _ (roundDiv_mono _ h)

/-- Nothing is rounded if one divides. -/
theorem roundDiv_one (n : Nat) : roundDiv n 1 = n := by
  have hle : roundDiv n 1 ≤ n := roundDiv_le Nat.one_pos (by omega)
  have hge := div_le_roundDiv n 1
  rw [Nat.div_one] at hge
  omega

/-- A scale that is not negative enlarges the denominator. -/
theorem scaled_of_nonneg {num den : Nat} {e : Int} (h : 0 ≤ e) :
    scaled num den e = (num, den * 2 ^ e.toNat) := if_pos h

/-- A scale that is not positive enlarges the numerator. -/
theorem scaled_of_nonpos {num den : Nat} {e : Int} (h : e ≤ 0) :
    scaled num den e = (num * 2 ^ (-e).toNat, den) := by
  by_cases hzero : e = 0
  · subst hzero
    simp [scaled]
  · rw [scaled, if_neg (by omega)]

/-- Rounding a whole number as a dyadic one. -/
theorem nearest_whole (bits n : Nat) (hn : n ≠ 0) :
    ∃ k : Nat, (nearest (bits + 1) n 1).exponent = (k : Int) - bits ∧
      (nearest (bits + 1) n 1).mantissa * 2 ^ k = roundWhole bits n * 2 ^ bits := by
  have hlog : (1 : Nat).log2 = 0 := rfl
  have hself := Nat.log2_self_le hn
  have hlt := Nat.lt_log2_self (n := n)
  rw [nearest, if_neg hn]
  simp only [hlog, Nat.add_sub_cancel]
  by_cases hle : n.log2 ≤ bits
  · -- The number is exact.
    have hguess : (n.log2 : Int) - (0 : Nat) - bits ≤ 0 := by omega
    have hshift : (-((n.log2 : Int) - (0 : Nat) - bits)).toNat = bits - n.log2 := by omega
    have hpow : 2 ^ bits = 2 ^ n.log2 * 2 ^ (bits - n.log2) := by
      rw [← Nat.pow_add]
      congr 1
      omega
    have hlow : ¬ n * 2 ^ (bits - n.log2) < 1 * 2 ^ bits := by
      rw [Nat.one_mul, hpow]
      exact Nat.not_lt.mpr (Nat.mul_le_mul_right _ hself)
    have hhigh : n * 2 ^ (bits - n.log2) ≠ 2 ^ (bits + 1) := by
      have : n * 2 ^ (bits - n.log2) < 2 ^ (n.log2 + 1) * 2 ^ (bits - n.log2) :=
        Nat.mul_lt_mul_of_pos_right hlt (Nat.two_pow_pos _)
      rw [Nat.pow_succ, hpow]
      rw [Nat.pow_succ] at this
      have hcomm : 2 ^ n.log2 * 2 * 2 ^ (bits - n.log2) = 2 ^ n.log2 * 2 ^ (bits - n.log2) * 2 := by
        rw [Nat.mul_right_comm]
      omega
    simp only [scaled_of_nonpos hguess, hshift, if_neg hlow, roundDiv_one, if_neg hhigh]
    refine ⟨n.log2, by omega, ?_⟩
    rw [roundWhole, Nat.sub_eq_zero_of_le hle, Nat.pow_zero, roundDiv_one, hpow]
    ring
  · -- The number has more bits than are kept; rounding up can carry into one more.
    have hguess : (0 : Int) ≤ (n.log2 : Int) - (0 : Nat) - bits := by omega
    have hshift : ((n.log2 : Int) - (0 : Nat) - bits).toNat = n.log2 - bits := by omega
    have hpow : 2 ^ n.log2 = 2 ^ (n.log2 - bits) * 2 ^ bits := by
      rw [← Nat.pow_add]
      congr 1
      omega
    have hlow : ¬ n < 1 * 2 ^ (n.log2 - bits) * 2 ^ bits := by
      rw [Nat.one_mul, ← hpow]
      omega
    simp only [scaled_of_nonneg hguess, hshift, if_neg hlow]
    rw [Nat.one_mul, roundWhole]
    split
    next hcarry =>
      refine ⟨n.log2 + 1, by simp only; omega, ?_⟩
      simp only
      rw [hcarry, Nat.pow_succ, Nat.pow_succ, hpow]
      ring
    next =>
      refine ⟨n.log2, by simp only; omega, ?_⟩
      simp only
      rw [hpow]
      ring

/-- A whole number, rounded and then multiplied by a power of two, keeps its order. -/
theorem floor_nearest_mono (bits : Nat) (e : Int) {n n' : Nat} (h : n ≤ n') :
    floor ⟨(nearest (bits + 1) n 1).mantissa, (nearest (bits + 1) n 1).exponent + e⟩
      ≤ floor ⟨(nearest (bits + 1) n' 1).mantissa, (nearest (bits + 1) n' 1).exponent + e⟩ := by
  have hfloor : ∀ n ≠ 0,
      floor ⟨(nearest (bits + 1) n 1).mantissa, (nearest (bits + 1) n 1).exponent + e⟩
        = floor ⟨roundWhole bits n * 2 ^ bits, e - bits⟩ := by
    intro n hn
    obtain ⟨k, hexponent, hmantissa⟩ := nearest_whole bits n hn
    rw [← hmantissa, floor_shift, hexponent]
    congr 2
    omega
  by_cases hzero : n = 0
  · have hnone : floor ⟨(nearest (bits + 1) n 1).mantissa, (nearest (bits + 1) n 1).exponent + e⟩
        = 0 := by
      rw [hzero, nearest, if_pos rfl, floor]
      simp
    rw [hnone]
    exact Nat.zero_le _
  · rw [hfloor n hzero, hfloor n' (by omega)]
    exact floor_mono _ (Nat.mul_le_mul_right _ (roundWhole_mono bits h))

/-! ## The size of a rounded quotient -/

/-- A quotient is within the bits that its parts leave it. -/
theorem scaled_lt {num den a b p : Nat} {e : Int} (hnum : num < 2 ^ a) (hden : 2 ^ b ≤ den)
    (h : (a : Int) ≤ b + e + p) : (scaled num den e).1 < (scaled num den e).2 * 2 ^ p := by
  by_cases he : 0 ≤ e
  · rw [scaled_of_nonneg he]
    calc num < 2 ^ a := hnum
      _ ≤ 2 ^ (b + e.toNat + p) := Nat.pow_le_pow_right (by omega) (by omega)
      _ = 2 ^ b * 2 ^ e.toNat * 2 ^ p := by rw [Nat.pow_add, Nat.pow_add]
      _ ≤ den * 2 ^ e.toNat * 2 ^ p := Nat.mul_le_mul_right _ (Nat.mul_le_mul_right _ hden)
  · rw [scaled_of_nonpos (by omega)]
    calc num * 2 ^ (-e).toNat < 2 ^ a * 2 ^ (-e).toNat :=
          Nat.mul_lt_mul_of_pos_right hnum (Nat.two_pow_pos _)
      _ = 2 ^ (a + (-e).toNat) := (Nat.pow_add ..).symm
      _ ≤ 2 ^ (b + p) := Nat.pow_le_pow_right (by omega) (by omega)
      _ = 2 ^ b * 2 ^ p := Nat.pow_add ..
      _ ≤ den * 2 ^ p := Nat.mul_le_mul_right _ hden

/-- One step less of scale takes one bit more. -/
theorem scaled_pred_lt {num den p : Nat} {e : Int}
    (h : (scaled num den e).1 < (scaled num den e).2 * 2 ^ p) :
    (scaled num den (e - 1)).1 < (scaled num den (e - 1)).2 * 2 ^ (p + 1) := by
  by_cases he : 0 < e
  · rw [scaled_of_nonneg (by omega)] at h
    rw [scaled_of_nonneg (by omega)]
    have hsucc : e.toNat = (e - 1).toNat + 1 := by omega
    have hpow : den * 2 ^ e.toNat * 2 ^ p = den * 2 ^ (e - 1).toNat * 2 ^ (p + 1) := by
      rw [hsucc]
      ring
    simp only at h ⊢
    omega
  · rw [scaled_of_nonpos (by omega)] at h
    rw [scaled_of_nonpos (by omega)]
    have hsucc : (-(e - 1)).toNat = (-e).toNat + 1 := by omega
    have hnum : num * 2 ^ (-(e - 1)).toNat = num * 2 ^ (-e).toNat * 2 := by
      rw [hsucc]
      ring
    have hden : den * 2 ^ (p + 1) = den * 2 ^ p * 2 := by ring
    simp only at h ⊢
    omega

/-- A rounded quotient has at most the bits asked for, and an exponent by the lengths of its
parts. -/
theorem nearest_le (bits : Nat) {num den : Nat} (hnum : num ≠ 0) (hden : 0 < den) :
    (nearest (bits + 1) num den).mantissa ≤ 2 ^ (bits + 1) ∧
      (nearest (bits + 1) num den).exponent ≤ (num.log2 : Int) - den.log2 - bits + 1 := by
  have hfits : ∀ e, (scaled num den e).1 < (scaled num den e).2 * 2 ^ (bits + 1) →
      roundDiv (scaled num den e).1 (scaled num den e).2 ≤ 2 ^ (bits + 1) := by
    intro e he
    refine roundDiv_le (Nat.pos_of_ne_zero fun hzero => ?_) (Nat.le_of_lt he)
    rw [hzero, Nat.zero_mul] at he
    exact absurd he (Nat.not_lt_zero _)
  -- the quotient fits at the first guess of the exponent, and also one below if it was too small
  have hguess := scaled_lt (e := (num.log2 : Int) - den.log2 - bits) (p := bits + 1)
    (Nat.lt_log2_self (n := num)) (Nat.log2_self_le (n := den) (by omega)) (by omega)
  have hhalf : 2 ^ bits ≤ 2 ^ (bits + 1) := Nat.pow_le_pow_right (by omega) (by omega)
  rw [nearest, if_neg hnum]
  simp only [Nat.add_sub_cancel]
  split
  next hlow =>
    have hround := hfits _ (scaled_pred_lt hlow)
    split
    · exact ⟨hhalf, by simp only; omega⟩
    · exact ⟨hround, by simp only; omega⟩
  next =>
    have hround := hfits _ hguess
    split
    · exact ⟨hhalf, by simp only; omega⟩
    · exact ⟨hround, by simp only; omega⟩

/-- A number of k + 1 bits has its first bit at k or below. -/
theorem log2_le_of_lt {n k : Nat} (h : n < 2 ^ (k + 1)) : n.log2 ≤ k := by
  by_cases hzero : n = 0
  · rw [hzero, Nat.log2_zero]
    exact Nat.zero_le _
  · exact Nat.lt_succ_iff.mp ((Nat.log2_lt hzero).mpr h)

/-- Dividing a number by a whole number and rounding keeps it in size. -/
theorem divNearest_le (bits : Nat) {x : Dyadic} {den k : Nat} (hden : 0 < den)
    (hx : x.mantissa * 2 ^ x.exponent.toNat < 2 ^ (k + 1)) :
    (divNearest (bits + 1) x den).mantissa ≤ 2 ^ (bits + 1) ∧
      (divNearest (bits + 1) x den).exponent ≤ max 0 ((k : Int) - bits + 1) := by
  by_cases hzero : x.mantissa = 0
  · have hnum : (scaled x.mantissa den (-x.exponent)).1 = 0 := by
      rw [hzero, scaled]
      split
      · rfl
      · exact Nat.zero_mul _
    rw [divNearest]
    simp only [hnum, nearest, if_pos]
    exact ⟨Nat.zero_le _, Int.le_max_left ..⟩
  rw [divNearest]
  by_cases he : 0 ≤ -x.exponent
  · rw [scaled_of_nonneg he]
    have hexponent : x.exponent.toNat = 0 := by omega
    rw [hexponent, Nat.pow_zero, Nat.mul_one] at hx
    have hlog := log2_le_of_lt hx
    obtain ⟨hmantissa, hbound⟩ := nearest_le bits hzero
      (Nat.mul_pos hden (Nat.two_pow_pos (-x.exponent).toNat))
    exact ⟨hmantissa, by simp only; omega⟩
  · rw [scaled_of_nonpos (by omega), Int.neg_neg]
    have hlog := log2_le_of_lt hx
    obtain ⟨hmantissa, hbound⟩ := nearest_le bits
      (Nat.mul_ne_zero hzero (Nat.pos_iff_ne_zero.mp (Nat.two_pow_pos x.exponent.toNat))) hden
    exact ⟨hmantissa, by simp only; omega⟩

end Dyadic

namespace Binary32

/-- A greater number is not cut off to a smaller one. -/
theorem saturate_mono {i j : Int} (h : i ≤ j) : saturate i ≤ saturate j := by
  rw [saturate, saturate]
  omega

/-- The estimate of a number without a sign, before it is kept between bounds. -/
def magnitude (exponent fraction index : Nat) : Int :=
  if exponent = 255 then if fraction ≠ 0 ∨ index = 0 then 0 else 2 ^ 63
  else
    let x : Dyadic := if exponent = 0 then ⟨fraction, -149⟩
      else ⟨fraction + 2 ^ 23, (exponent : Int) - 150⟩
    let product := Dyadic.nearest 24 (x.mantissa * index) 1
    Dyadic.floor ⟨product.mantissa, product.exponent + x.exponent⟩

/-- A greater index has no smaller product. -/
theorem magnitude_mono (exponent fraction : Nat) {i j : Nat} (h : i ≤ j) :
    magnitude exponent fraction i ≤ magnitude exponent fraction j := by
  rw [magnitude, magnitude]
  split
  · -- Infinity is the only number here with estimates other than zero.
    by_cases hfraction : fraction ≠ 0
    · rw [if_pos (.inl hfraction), if_pos (.inl hfraction)]
    · by_cases hi : i = 0
      · rw [if_pos (.inr hi)]
        split <;> decide
      · rw [if_neg (by omega), if_neg (by omega)]
  · exact Int.ofNat_le.mpr (Dyadic.floor_nearest_mono 23 _ (Nat.mul_le_mul_left _ h))

/-- A product with an index is not negative. -/
theorem magnitude_nonneg (exponent fraction index : Nat) :
    0 ≤ magnitude exponent fraction index := by
  rw [magnitude]
  split
  · split <;> decide
  · exact Int.natCast_nonneg _

/-- A number that is not negative is multiplied as its mantissa and exponent say. -/
theorem timesIndex_of_lt {number : UInt32} (h : number.toNat < 2 ^ 31) (index : Nat) :
    timesIndex number index
      = saturate (magnitude (number.toNat / 2 ^ 23 % 256) (number.toNat % 2 ^ 23) index) := by
  rw [timesIndex, if_pos h]
  rfl

/-- **A larger index never gives a smaller estimate.** -/
theorem timesIndex_mono {number : UInt32} (h : number.toNat < 2 ^ 31) {i j : Nat} (hij : i ≤ j) :
    timesIndex number i ≤ timesIndex number j := by
  rw [timesIndex_of_lt h, timesIndex_of_lt h]
  exact saturate_mono (magnitude_mono _ _ hij)

/-- A product with an index is within 63 bits. -/
theorem timesIndex_bounds {number : UInt32} (h : number.toNat < 2 ^ 31) (index : Nat) :
    0 ≤ timesIndex number index ∧ timesIndex number index < 2 ^ 63 := by
  have := magnitude_nonneg (number.toNat / 2 ^ 23 % 256) (number.toNat % 2 ^ 23) index
  rw [timesIndex_of_lt h, saturate]
  omega

/-- **The slope of a row of 63-bit numbers that grows is not negative.** -/
theorem slope_lt {span steps : Nat} (hspan : span < 2 ^ 63) (hsteps : 0 < steps) :
    (slope span steps).toNat < 2 ^ 31 := by
  -- three roundings: of the span, of the quotient, and of that to the narrow format
  have hwide : (Dyadic.nearest 53 span 1).mantissa
      * 2 ^ (Dyadic.nearest 53 span 1).exponent.toNat < 2 ^ 65 := by
    by_cases hzero : span = 0
    · rw [hzero]
      decide
    · obtain ⟨hmantissa, hexponent⟩ : (Dyadic.nearest 53 span 1).mantissa ≤ 2 ^ 53 ∧
          (Dyadic.nearest 53 span 1).exponent ≤ (span.log2 : Int) - (0 : Nat) - (52 : Nat) + 1 :=
        Dyadic.nearest_le 52 hzero Nat.one_pos
      have hlog := Dyadic.log2_le_of_lt (k := 62) hspan
      calc _ ≤ 2 ^ 53 * 2 ^ 11 :=
            Nat.mul_le_mul hmantissa (Nat.pow_le_pow_right (by omega) (by omega))
        _ < 2 ^ 65 := by decide
  obtain ⟨hmantissa, hexponent⟩ :
      ((Dyadic.nearest 53 span 1).divNearest 53 steps).mantissa ≤ 2 ^ 53 ∧
        ((Dyadic.nearest 53 span 1).divNearest 53 steps).exponent
          ≤ max 0 (((64 : Nat) : Int) - (52 : Nat) + 1) :=
    Dyadic.divNearest_le 52 hsteps hwide
  have hnarrow : ((Dyadic.nearest 53 span 1).divNearest 53 steps).mantissa
      * 2 ^ ((Dyadic.nearest 53 span 1).divNearest 53 steps).exponent.toNat < 2 ^ 67 := by
    calc _ ≤ 2 ^ 53 * 2 ^ 13 :=
          Nat.mul_le_mul hmantissa (Nat.pow_le_pow_right (by omega) (by omega))
      _ < 2 ^ 67 := by decide
  obtain ⟨hmantissa', hexponent'⟩ :
      (((Dyadic.nearest 53 span 1).divNearest 53 steps).divNearest 24 1).mantissa ≤ 2 ^ 24 ∧
        (((Dyadic.nearest 53 span 1).divNearest 53 steps).divNearest 24 1).exponent
          ≤ max 0 (((66 : Nat) : Int) - (23 : Nat) + 1) :=
    Dyadic.divNearest_le 23 Nat.one_pos hnarrow
  rw [slope, ofDyadic]
  split
  · decide
  · rw [UInt32.toNat_ofNat']
    refine Nat.lt_of_le_of_lt (Nat.mod_le ..) ?_
    omega

end Binary32

end Lexicon
