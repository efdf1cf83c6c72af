import WorkflowExpr.Json.Number
import WorkflowExpr.Proofs.Binary64.Errors
import WorkflowExpr.Proofs.Binary64.Operations
import WorkflowExpr.Proofs.Decimal.Shortest

/-!
Scaling by powers of ten, as the reader of numbers does it. A decimal that reads back as a
magnitude when it is rounded once comes out within six units in the last place of that
magnitude when significand, power and each division or product are rounded.
-/

namespace WorkflowExpr.Json.Number

open Magnitude

variable {m : Magnitude} {d : Decimal}

/-- A decimal that reads back lies near the magnitude. -/
theorem abs_sub_le_of_readsBack (h : m.readsBack d = true) :
    |(m.units : ℚ) - d.value * unitsPerOne| ≤ 2 ^ spareBits m.units / 2 := by
  have hvalue := d.numerator_mul_div_denominator unitsPerOne
  have hround := (readsBack_iff d.denominator_pos hvalue).mp h
  rw [← hvalue]
  exact abs_sub_le_spacing_of_roundUnits d.denominator_pos hround

theorem value_pos (hpos : 0 < d.digits) : 0 < d.value * unitsPerOne :=
  mul_pos (mul_pos (Nat.cast_pos.mpr hpos) (zpow_pos (by norm_num) _)) cast_unitsPerOne_pos

/-- A decimal that reads back is half a unit at least and not far beyond the magnitude. -/
theorem value_bounds_of_readsBack (hm : 0 < m.units) (hpos : 0 < d.digits)
    (h : m.readsBack d = true) :
    1 / 2 ≤ d.value * unitsPerOne ∧ d.value * unitsPerOne ≤ 2 * m.units + 1 := by
  have hvalue := d.numerator_mul_div_denominator unitsPerOne
  have hnear := abs_roundUnits_sub_le (d.numerator * unitsPerOne) d.denominator_pos
  rw [(readsBack_iff d.denominator_pos hvalue).mp h, hvalue, abs_le] at hnear
  have hunits : (1 : ℚ) ≤ m.units := Nat.one_le_cast.mpr hm
  have hmost : d.value * unitsPerOne * roundoff ≤ d.value * unitsPerOne / 2 := by
    rw [div_eq_mul_one_div]
    exact mul_le_mul_of_nonneg_left (by norm_num [roundoff]) (value_pos hpos).le
  rcases max_choice (1 / 2) (d.value * unitsPerOne * roundoff) with hmax | hmax
  · rw [hmax] at hnear
    constructor <;> linarith
  · rw [hmax] at hnear
    constructor <;> linarith

theorem exponent_gt_of_half_le (hdigits : d.digits ≤ 10 ^ 17)
    (h : 1 / 2 ≤ d.value * unitsPerOne) : -341 < d.exponent := by
  by_contra hless
  have hone := cast_unitsPerOne_pos
  have hmost : (d.digits : ℚ) * unitsPerOne ≤ 10 ^ 17 * unitsPerOne :=
    mul_le_mul_of_nonneg_right (by exact_mod_cast hdigits) hone.le
  have hsmall : 2 * (10 ^ 17 * unitsPerOne) < 10 ^ 341 := by decide +kernel
  have hsmall' : 2 * (10 ^ 17 * (unitsPerOne : ℚ)) < (10 ^ 341 : Nat) := by exact_mod_cast hsmall
  have hpower : (10 : ℚ) ^ d.exponent * (10 ^ 341 : Nat) ≤ 1 := by
    rw [Nat.cast_pow, ← zpow_natCast, Nat.cast_ofNat, ← zpow_add₀ (by norm_num)]
    exact zpow_le_one_of_nonpos₀ (by norm_num) (by omega)
  rw [Decimal.value] at h
  generalize ((10 ^ 341 : Nat) : ℚ) = power at hsmall' hpower
  have hmul := mul_le_mul_of_nonneg_left hpower (mul_nonneg (Nat.cast_nonneg d.digits) hone.le)
  have hmul' := mul_le_mul_of_nonneg_right h (by linarith : 0 ≤ power)
  linarith

theorem exponent_lt_of_le (hpos : 0 < d.digits) (h : d.value * unitsPerOne ≤ 2 * limit + 1) :
    d.exponent < 309 := by
  by_contra hmore
  have hone := cast_unitsPerOne_pos
  have hleast : (1 : ℚ) * unitsPerOne ≤ d.digits * unitsPerOne :=
    mul_le_mul_of_nonneg_right (Nat.one_le_cast.mpr hpos) hone.le
  have hlarge : 2 * limit + 1 < 10 ^ 309 * unitsPerOne := by decide +kernel
  have hlarge' : 2 * (limit : ℚ) + 1 < (10 ^ 309 : Nat) * unitsPerOne := by exact_mod_cast hlarge
  have hpower : ((10 ^ 309 : Nat) : ℚ) ≤ 10 ^ d.exponent := by
    rw [Nat.cast_pow, ← zpow_natCast, Nat.cast_ofNat]
    exact zpow_le_zpow_right₀ (by norm_num) (by omega)
  rw [Decimal.value] at h
  have hmul := mul_le_mul_of_nonneg_right hleast
    (zpow_nonneg (by norm_num : (0 : ℚ) ≤ 10) d.exponent)
  have hmul' := mul_le_mul_of_nonneg_right hpower hone.le
  linarith

/-- Between the least and the greatest magnitude there are not many powers of ten. -/
theorem exponent_of_readsBack (hm : 0 < m.units) (hpos : 0 < d.digits)
    (hdigits : d.digits ≤ 10 ^ 17) (h : m.readsBack d = true) :
    -341 < d.exponent ∧ d.exponent < 309 := by
  obtain ⟨hleast, hmost⟩ := value_bounds_of_readsBack hm hpos h
  have hlimit : (m.units : ℚ) < limit := Nat.cast_lt.mpr m.representable.2
  exact ⟨exponent_gt_of_half_le hdigits hleast, exponent_lt_of_le hpos (by linarith)⟩

/-- Dividing by a power of ten that was rounded. -/
theorem abs_div_sub_le {x p : Magnitude} {a j h : ℚ} {k : Nat} (hj : 0 ≤ j) (hj' : j ≤ 8)
    (hh : 0 ≤ h) (ha : 0 ≤ a) (hx : |(x.units : ℚ) - a| ≤ j * roundoff * a + h)
    (hp : |(p.units : ℚ) - 10 ^ k * unitsPerOne| ≤ roundoff * (10 ^ k * unitsPerOne)) :
    |((x.units * unitsPerOne : Nat) : ℚ) / p.units - a / 10 ^ k| ≤
      (j + 1 + 1 / 64) * roundoff * (a / 10 ^ k) + 65 / 64 * (h / 10 ^ k) := by
  have hone := cast_unitsPerOne_pos
  have hdiv := abs_div_sub_div_le hj hj' hh ha (by positivity) hx hp
  have hscaled : ((x.units * unitsPerOne : Nat) : ℚ) / p.units - a / 10 ^ k =
      (x.units / p.units - a / (10 ^ k * unitsPerOne)) * unitsPerOne := by
    push_cast
    field_simp
  rw [hscaled, abs_mul, abs_of_pos hone]
  refine (mul_le_mul_of_nonneg_right hdiv hone.le).trans (le_of_eq ?_)
  field_simp

/-- Multiplying by a power of ten that was rounded. -/
theorem abs_mul_sub_le {x p : Magnitude} {a : ℚ} {k : Nat} (ha : 0 ≤ a)
    (hx : |(x.units : ℚ) - a| ≤ roundoff * a)
    (hp : |(p.units : ℚ) - 10 ^ k * unitsPerOne| ≤ roundoff * (10 ^ k * unitsPerOne)) :
    |((x.units * p.units : Nat) : ℚ) / unitsPerOne - a * 10 ^ k| ≤
      (2 + 1 / 64) * roundoff * (a * 10 ^ k) := by
  have hone := cast_unitsPerOne_pos
  have hmul := abs_mul_sub_mul_le ha (by positivity) hx hp
  have hscaled : ((x.units * p.units : Nat) : ℚ) / unitsPerOne - a * 10 ^ k =
      (x.units * p.units - a * (10 ^ k * unitsPerOne)) / unitsPerOne := by
    push_cast
    field_simp
  rw [hscaled, abs_div, abs_of_pos hone, div_le_iff₀ hone]
  refine hmul.trans (le_of_eq ?_)
  ring

theorem powerOfTen_spec {k : Nat} (hk : k ≤ greatestPower) :
    ∃ p : Magnitude, powerOfTen k = .finite false p ∧
      p.units = roundUnits (10 ^ k * unitsPerOne) 1 ∧
      |(p.units : ℚ) - 10 ^ k * unitsPerOne| ≤ roundoff * (10 ^ k * unitsPerOne) := by
  have hpos : 0 < 10 ^ k := Nat.pow_pos (by decide)
  obtain ⟨p, hp, hunits, hnear⟩ := Binary64.ofNat_spec hpos hk (Nat.le_refl _)
  rw [Nat.cast_pow, Nat.cast_ofNat] at hnear
  exact ⟨p, hp, hunits, hnear⟩

/-- What is near a positive number is positive. -/
theorem units_pos_of_near {p : Magnitude} {b : ℚ} (hb : 0 < b)
    (hp : |(p.units : ℚ) - b| ≤ roundoff * b) : 0 < p.units := by
  have hlow := (abs_le.mp hp).1
  have hless : roundoff * b < b := mul_lt_of_lt_one_left hb (by norm_num [roundoff])
  have hpos : (0 : ℚ) < p.units := by linarith
  exact_mod_cast hpos

/-- One division by a power of ten. -/
theorem divPower_spec {x : Magnitude} {a j h : ℚ} {k : Nat} (hk : k ≤ greatestPower)
    (hj : 0 ≤ j) (hj' : j ≤ 8) (hh : 0 ≤ h) (ha : 0 ≤ a)
    (hx : |(x.units : ℚ) - a| ≤ j * roundoff * a + h) :
    ∃ p : Magnitude, 0 < p.units ∧
      divPower (.finite false x) k = .ofUnits false (x.units * unitsPerOne) p.units ∧
      |((x.units * unitsPerOne : Nat) : ℚ) / p.units - a / 10 ^ k| ≤
        (j + 1 + 1 / 64) * roundoff * (a / 10 ^ k) + 65 / 64 * (h / 10 ^ k) := by
  have hone := cast_unitsPerOne_pos
  obtain ⟨p, hp, -, hnear⟩ := powerOfTen_spec hk
  have hpos := units_pos_of_near (mul_pos (pow_pos (by norm_num) k) hone) hnear
  refine ⟨p, hpos, ?_, abs_div_sub_le hj hj' hh ha hx hnear⟩
  rw [divPower, if_pos hk, hp, Binary64.div_finite hpos]

section Quotients

variable {n k : Nat} {v c h : ℚ}

/-- What stands for a number that is not too large is finite when it is rounded. -/
theorem roundUnits_lt_limit_of_near (hk : 0 < k) (hv : 0 ≤ v) (hroom : c + h ≤ 35 / 8)
    (hc : 0 ≤ c) (hh : 0 ≤ h) (hmost : v ≤ 10 ^ 17 * unitsPerOne)
    (hq : |(n : ℚ) / k - v| ≤ c * roundoff * v + h) : roundUnits n k < limit := by
  refine roundUnits_lt_limit hk ?_
  have hfits : 2 * (2 * (10 ^ 17 * unitsPerOne) + 5) < limit := by decide +kernel
  have hfits' : 2 * (2 * (10 ^ 17 * (unitsPerOne : ℚ)) + 5) < limit := by exact_mod_cast hfits
  have hrate : c * roundoff ≤ 1 := by
    rw [roundoff]
    linarith
  have hoff : c * roundoff * v ≤ v := mul_le_of_le_one_left hv hrate
  have hle : (n : ℚ) / k ≤ 2 * (10 ^ 17 * unitsPerOne) + 5 := by linarith [(abs_le.mp hq).2]
  have hdouble : (n : ℚ) / k * (1 + roundoff) ≤ n / k * 2 :=
    mul_le_mul_of_nonneg_left (by norm_num [roundoff])
      (div_nonneg (Nat.cast_nonneg n) (Nat.cast_nonneg k))
  linarith

/-- Rounding a quotient that is not too large and stands for a number near a magnitude. -/
theorem ofUnits_near (hk : 0 < k) (hv : 0 ≤ v) (hroom : c + h ≤ 35 / 8) (hc : 0 ≤ c)
    (hh : 0 ≤ h) (hmost : v ≤ 10 ^ 17 * unitsPerOne)
    (hu : |(m.units : ℚ) - v| ≤ 2 ^ spareBits m.units / 2)
    (hq : |(n : ℚ) / k - v| ≤ c * roundoff * v + h) :
    ∃ y : Magnitude, Binary64.ofUnits false n k = .finite false y ∧
      |(y.units : ℚ) - m.units| < 6 * 2 ^ spareBits m.units := by
  obtain ⟨y, hy, hunits⟩ :=
    Binary64.ofUnits_of_lt false (roundUnits_lt_limit_of_near hk hv hroom hc hh hmost hq)
  refine ⟨y, hy, ?_⟩
  rw [hunits]
  exact abs_roundUnits_sub_lt hk hu hc hh hroom hq

end Quotients

theorem divPower_of_gt {x : Magnitude} {k : Nat} (hx : 0 < x.units) (hk : greatestPower < k) :
    divPower (.finite false x) k =
      divPower (divPower (.finite false x) greatestPower) (k - greatestPower) := by
  have hzero : ¬ (Binary64.finite false x).isZero = true := by
    rw [Binary64.isZero, beq_iff_eq]
    omega
  have hone : divPower (.finite false x) greatestPower =
      .finite false x / powerOfTen greatestPower := by
    rw [divPower, if_pos (Nat.le_refl _)]
  rw [divPower, if_neg (Nat.not_le.mpr hk), if_neg hzero, hone]

section Division

variable {x : Magnitude} {v : ℚ} {k : Nat}

/-- A significand scaled down by a power of ten in one step. -/
theorem divPower_near_of_le (hk : k ≤ greatestPower) (hv : 0 ≤ v)
    (hx : |(x.units : ℚ) - v * 10 ^ k| ≤ 1 * roundoff * (v * 10 ^ k) + 0)
    (hmost : v ≤ 10 ^ 17 * unitsPerOne) (hu : |(m.units : ℚ) - v| ≤ 2 ^ spareBits m.units / 2) :
    ∃ y : Magnitude, divPower (.finite false x) k = .finite false y ∧
      |(y.units : ℚ) - m.units| < 6 * 2 ^ spareBits m.units := by
  obtain ⟨p, hp, hdiv, hnear⟩ :=
    divPower_spec hk zero_le_one (by norm_num) le_rfl (mul_nonneg hv (by positivity)) hx
  rw [mul_div_cancel_right₀ _ (by positivity), zero_div, mul_zero] at hnear
  rw [hdiv]
  exact ofUnits_near hp hv (by norm_num) (by norm_num) le_rfl hmost hu hnear

/-- A significand scaled down by a power of ten in two steps. -/
theorem divPower_near_of_gt (hk : k + 1 ≤ greatestPower) (hpos : 0 < x.units) (hv : 0 ≤ v)
    (hx : |(x.units : ℚ) - v * 10 ^ (k + 1) * 10 ^ greatestPower| ≤
      1 * roundoff * (v * 10 ^ (k + 1) * 10 ^ greatestPower) + 0)
    (hmost : v * 10 ^ (k + 1) ≤ 10 ^ 17 * unitsPerOne)
    (hu : |(m.units : ℚ) - v| ≤ 2 ^ spareBits m.units / 2) :
    ∃ y : Magnitude, divPower (.finite false x) (greatestPower + (k + 1)) = .finite false y ∧
      |(y.units : ℚ) - m.units| < 6 * 2 ^ spareBits m.units := by
  have hten : (10 : ℚ) ≤ 10 ^ (k + 1) := by
    rw [pow_succ]
    exact le_mul_of_one_le_left (by norm_num) (one_le_pow₀ (by norm_num))
  have hfirst : 0 ≤ v * 10 ^ (k + 1) := mul_nonneg hv (by positivity)
  have hmost' : v ≤ 10 ^ 17 * unitsPerOne :=
    (le_mul_of_one_le_right hv (by linarith)).trans hmost
  obtain ⟨p, hp, hdiv, hnear⟩ := divPower_spec (Nat.le_refl _) zero_le_one (by norm_num) le_rfl
    (mul_nonneg hfirst (by positivity)) hx
  rw [mul_div_cancel_right₀ _ (by positivity), zero_div, mul_zero] at hnear
  -- The first step also loses up to half a unit, of which the second leaves little.
  obtain ⟨y, hy, hunits⟩ := Binary64.ofUnits_of_lt false
    (roundUnits_lt_limit_of_near hp hfirst (by norm_num) (by norm_num) le_rfl hmost hnear)
  have hround := abs_roundUnits_sub_le (x.units * unitsPerOne) hp
  rw [add_zero] at hnear
  rw [← hunits] at hround
  have hynear := abs_sub_le_of_round (by norm_num) hfirst hnear hround
  obtain ⟨p', hp', hdiv', hnear'⟩ :=
    divPower_spec hk (by norm_num) (by norm_num) (by norm_num) hfirst hynear
  rw [mul_div_cancel_right₀ _ (by positivity)] at hnear'
  have hhalf : 65 / 64 * (1 / 2 / (10 : ℚ) ^ (k + 1)) ≤ 1 / 16 := by
    rw [← mul_div_assoc, div_le_iff₀ (by positivity)]
    linarith
  rw [divPower_of_gt hpos (by omega), hdiv, hy, Nat.add_sub_cancel_left, hdiv']
  exact ofUnits_near hp' hv (by norm_num) (by norm_num) (by norm_num) hmost' hu
    (hnear'.trans (add_le_add_right hhalf _))

end Division

/-- A small decimal is scaled to a number near the one that it reads back as. -/
theorem scale?_of_neg (hpos : 0 < d.digits) (hdigits : d.digits ≤ 10 ^ 17)
    (h : m.readsBack d = true) (hneg : d.exponent < 0) (hleast : -341 < d.exponent) :
    ∃ y : Magnitude, scale? d.digits d.exponent = some (.finite false y) ∧
      |(y.units : ℚ) - m.units| < 6 * 2 ^ spareBits m.units := by
  have hone := cast_unitsPerOne_pos
  have hv := (value_pos hpos).le
  have hu := abs_sub_le_of_readsBack h
  obtain ⟨x, hx, -, hxnear⟩ := Binary64.ofNat_spec hpos (by decide) hdigits
  have hxpos := units_pos_of_near (mul_pos (Nat.cast_pos.mpr hpos) hone) hxnear
  have hmost : (d.digits : ℚ) * unitsPerOne ≤ 10 ^ 17 * unitsPerOne :=
    mul_le_mul_of_nonneg_right (by exact_mod_cast hdigits) hone.le
  have hvalue : (d.digits : ℚ) * unitsPerOne =
      d.value * unitsPerOne * 10 ^ d.exponent.natAbs := by
    rw [Decimal.value_of_nonpos hneg.le]
    field_simp
  rw [hvalue, ← one_mul roundoff, ← add_zero (1 * roundoff * _)] at hxnear
  rw [hvalue] at hmost
  rw [scale?, if_pos hneg, hx]
  by_cases hk : d.exponent.natAbs ≤ greatestPower
  · have hmost' := (le_mul_of_one_le_right hv (one_le_pow₀ (by norm_num))).trans hmost
    obtain ⟨y, hy, hnear⟩ := divPower_near_of_le hk hv hxnear hmost' hu
    exact ⟨y, congrArg some hy, hnear⟩
  · obtain ⟨k, hsplit⟩ := Nat.exists_eq_add_of_lt (Nat.lt_of_not_le hk)
    rw [Nat.add_assoc] at hsplit
    have hrest : k + 1 ≤ greatestPower := by
      rw [greatestPower] at hsplit ⊢
      omega
    rw [hsplit, Nat.add_comm greatestPower, pow_add, ← mul_assoc] at hxnear hmost
    have hmost' := (le_mul_of_one_le_right (mul_nonneg hv (by positivity))
      (one_le_pow₀ (by norm_num))).trans hmost
    obtain ⟨y, hy, hnear⟩ := divPower_near_of_gt hrest hxpos hv hxnear hmost' hu
    rw [hsplit]
    exact ⟨y, congrArg some hy, hnear⟩

/-- The spacing at a magnitude, against the limit. -/
theorem two_pow_spareBits_le_limit (m : Magnitude) :
    (2 : ℚ) ^ spareBits m.units ≤ limit * roundoff := by
  -- The exponent stays a variable, as the power itself is too large to compute with.
  have hpower : ∀ e, 53 ≤ e → m.units < 2 ^ e → 2 ^ 53 * 2 ^ spareBits m.units ≤ 2 ^ e := by
    intro e he hlt
    rw [← Nat.pow_add]
    refine Nat.pow_le_pow_right two_pos ?_
    by_cases hspare : spareBits m.units = 0
    · rwa [hspare]
    · have hlow := two_pow_spareBits_le m.units hspare
      rw [← Nat.pow_add] at hlow
      have hexponent := (Nat.pow_lt_pow_iff_right (by decide)).mp (Nat.lt_of_le_of_lt hlow hlt)
      omega
  have hle : 2 ^ 53 * 2 ^ spareBits m.units ≤ limit := by
    have hlimit := m.representable.2
    rw [limit, Nat.one_shiftLeft] at hlimit ⊢
    exact hpower limitExponent (by decide) hlimit
  have hcast : (2 : ℚ) ^ 53 * 2 ^ spareBits m.units ≤ limit := by exact_mod_cast hle
  rw [roundoff]
  linarith

/-- A quotient for a magnitude that is not next to the limit is not rounded up to the limit. -/
theorem roundUnits_lt_limit_of_units_le {n k : Nat} {v : ℚ} (hk : 0 < k)
    (hu : |(m.units : ℚ) - v| ≤ 2 ^ spareBits m.units / 2)
    (hq : |(n : ℚ) / k - v| ≤ (2 + 1 / 64) * roundoff * v)
    (hless : (m.units : ℚ) ≤ limit * (1 - 4 * roundoff)) : roundUnits n k < limit := by
  refine roundUnits_lt_limit hk ?_
  have hspacing := two_pow_spareBits_le_limit m
  have hlimit : (0 : ℚ) < limit := Nat.cast_pos.mpr limit_pos
  have hv : v ≤ limit * (1 - 7 / 2 * roundoff) := by linarith [(abs_le.mp hu).1]
  have hquotient : (n : ℚ) / k ≤ (1 + (2 + 1 / 64) * roundoff) * v := by
    linarith [(abs_le.mp hq).2]
  calc (n : ℚ) / k * (1 + roundoff)
      ≤ (1 + (2 + 1 / 64) * roundoff) * (limit * (1 - 7 / 2 * roundoff)) * (1 + roundoff) := by
        refine mul_le_mul_of_nonneg_right (hquotient.trans ?_) (by norm_num [roundoff])
        exact mul_le_mul_of_nonneg_left hv (by norm_num [roundoff])
    _ = limit * ((1 + (2 + 1 / 64) * roundoff) * (1 - 7 / 2 * roundoff) * (1 + roundoff)) := by
        ring
    _ < limit := mul_lt_of_lt_one_right hlimit (by norm_num [roundoff])

/-- A large decimal is scaled to a number near the one that it reads back as. Only next to the
limit it could turn out too large. -/
theorem scale?_of_nonneg (hpos : 0 < d.digits) (hdigits : d.digits ≤ 10 ^ 17)
    (h : m.readsBack d = true) (hnonneg : 0 ≤ d.exponent) (hgreatest : d.exponent < 309) :
    (∃ y : Magnitude, scale? d.digits d.exponent = some (.finite false y) ∧
      |(y.units : ℚ) - m.units| < 6 * 2 ^ spareBits m.units) ∨
    (scale? d.digits d.exponent = none ∧ (limit : ℚ) * (1 - 4 * roundoff) < m.units) := by
  have hv := (value_pos hpos).le
  have hu := abs_sub_le_of_readsBack h
  have hk : d.exponent.natAbs ≤ greatestPower := by
    rw [greatestPower]
    omega
  have hvalue : d.value * unitsPerOne = d.digits * unitsPerOne * 10 ^ d.exponent.natAbs := by
    rw [Decimal.value_of_nonneg hnonneg, mul_right_comm]
  obtain ⟨x, hx, -, hxnear⟩ := Binary64.ofNat_spec hpos (by decide) hdigits
  obtain ⟨p, hp, -, hpnear⟩ := powerOfTen_spec hk
  have hmul := abs_mul_sub_le (mul_nonneg (Nat.cast_nonneg _) (Nat.cast_nonneg _)) hxnear hpnear
  rw [← hvalue] at hmul
  rw [scale?, if_neg (Int.not_lt.mpr hnonneg), if_neg (Nat.not_lt.mpr hk), hx, hp,
    Binary64.mul_finite]
  by_cases hlt : roundUnits (x.units * p.units) unitsPerOne < limit
  · left
    obtain ⟨y, hy, hunits⟩ := Binary64.ofUnits_of_lt false hlt
    refine ⟨y, ?_, ?_⟩
    · rw [hy]
      rfl
    · rw [hunits]
      exact abs_roundUnits_sub_lt unitsPerOne_pos hu (by norm_num) le_rfl (by norm_num)
        (hmul.trans_eq (add_zero _).symm)
  · right
    refine ⟨?_, ?_⟩
    · rw [Binary64.ofUnits, dif_neg hlt]
      rfl
    · by_contra hless
      exact hlt (roundUnits_lt_limit_of_units_le unitsPerOne_pos hu hmul (not_lt.mp hless))

end WorkflowExpr.Json.Number
