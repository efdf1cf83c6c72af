import WorkflowExpr.Binary64.Arith
import WorkflowExpr.Proofs.Binary64.Nearest

/-!
How errors grow in multiplication and division. An operand comes with its distance from the
number that it stands for, measured in roundoffs of that number, and the lemmas give the
distance of the result. Each step leaves a little room, so that products of roundoffs need not
be carried along.
-/

namespace WorkflowExpr

namespace Magnitude

variable {x a p b j h : ℚ}

theorem roundoff_pos : 0 < roundoff := by
  rw [roundoff]
  positivity

/-- A quotient by a divisor that was rounded once. -/
theorem abs_div_sub_div_le (hj : 0 ≤ j) (hj' : j ≤ 8) (hh : 0 ≤ h) (ha : 0 ≤ a) (hb : 0 < b)
    (hx : |x - a| ≤ j * roundoff * a + h) (hp : |p - b| ≤ roundoff * b) :
    |x / p - a / b| ≤ (j + 1 + 1 / 64) * roundoff * (a / b) + 65 / 64 * (h / b) := by
  have hlow : b * (1 - roundoff) ≤ p := by linarith [(abs_le.mp hp).1]
  have hroom : 0 < 1 - roundoff := by norm_num [roundoff]
  have hppos : 0 < p := lt_of_lt_of_le (mul_pos hb hroom) hlow
  have hcross : |(x - a) * b - a * (p - b)| ≤ ((j + 1) * roundoff * a + h) * b := by
    calc |(x - a) * b - a * (p - b)| ≤ |(x - a) * b| + |a * (p - b)| := abs_sub _ _
      _ = |x - a| * b + a * |p - b| := by rw [abs_mul, abs_mul, abs_of_pos hb, abs_of_nonneg ha]
      _ ≤ (j * roundoff * a + h) * b + a * (roundoff * b) :=
          add_le_add (mul_le_mul_of_nonneg_right hx hb.le) (mul_le_mul_of_nonneg_left hp ha)
      _ = _ := by ring
  have hdiff : x / p - a / b = ((x - a) * b - a * (p - b)) / (p * b) := by
    field_simp
    ring
  have hsum : (j + 1 + 1 / 64) * roundoff * (a / b) + 65 / 64 * (h / b) =
      ((j + 1 + 1 / 64) * roundoff * a + 65 / 64 * h) * p / (p * b) := by
    field_simp
  rw [hdiff, hsum, abs_div, abs_of_pos (mul_pos hppos hb)]
  refine div_le_div_of_nonneg_right (hcross.trans ?_) (mul_pos hppos hb).le
  have hrate : (j + 1) * roundoff ≤ (j + 1 + 1 / 64) * roundoff * (1 - roundoff) := by
    rw [mul_right_comm, mul_le_mul_iff_of_pos_right roundoff_pos]
    norm_num [roundoff]
    linarith
  have hrest : (1 : ℚ) ≤ 65 / 64 * (1 - roundoff) := by norm_num [roundoff]
  calc ((j + 1) * roundoff * a + h) * b
      ≤ ((j + 1 + 1 / 64) * roundoff * (1 - roundoff) * a + 65 / 64 * (1 - roundoff) * h) * b := by
        refine mul_le_mul_of_nonneg_right (add_le_add ?_ ?_) hb.le
        · exact mul_le_mul_of_nonneg_right hrate ha
        · exact le_mul_of_one_le_left hh hrest
    _ = ((j + 1 + 1 / 64) * roundoff * a + 65 / 64 * h) * (b * (1 - roundoff)) := by ring
    _ ≤ _ := by
        refine mul_le_mul_of_nonneg_left hlow (add_nonneg (mul_nonneg (mul_nonneg ?_ ?_) ha) ?_)
        · linarith
        · exact roundoff_pos.le
        · linarith

/-- A product of factors that were each rounded once. -/
theorem abs_mul_sub_mul_le (ha : 0 ≤ a) (hb : 0 ≤ b) (hx : |x - a| ≤ roundoff * a)
    (hp : |p - b| ≤ roundoff * b) :
    |x * p - a * b| ≤ (2 + 1 / 64) * roundoff * (a * b) := by
  have hsplit : x * p - a * b = (x - a) * (p - b) + ((x - a) * b + a * (p - b)) := by ring
  have hroom : roundoff * roundoff * (a * b) ≤ 1 / 64 * roundoff * (a * b) := by
    refine mul_le_mul_of_nonneg_right ?_ (mul_nonneg ha hb)
    exact mul_le_mul_of_nonneg_right (by norm_num [roundoff]) roundoff_pos.le
  rw [hsplit]
  calc _ ≤ |x - a| * |p - b| + (|x - a| * b + a * |p - b|) := by
        refine (abs_add_le _ _).trans (add_le_add (abs_mul _ _).le ((abs_add_le _ _).trans ?_))
        rw [abs_mul, abs_mul, abs_of_nonneg ha, abs_of_nonneg hb]
    _ ≤ roundoff * a * (roundoff * b) + (roundoff * a * b + a * (roundoff * b)) := by
        refine add_le_add (mul_le_mul hx hp (abs_nonneg _) (mul_nonneg roundoff_pos.le ha))
          (add_le_add (mul_le_mul_of_nonneg_right hx hb) (mul_le_mul_of_nonneg_left hp ha))
    _ ≤ _ := by linarith

/-- Rounding what is already off. -/
theorem abs_sub_le_of_round {y q v : ℚ} (hj : j ≤ 8) (hv : 0 ≤ v)
    (hq : |q - v| ≤ j * roundoff * v) (hy : |y - q| ≤ max (1 / 2) (q * roundoff)) :
    |y - v| ≤ (j + 1 + 1 / 64) * roundoff * v + 1 / 2 := by
  have hless : q ≤ (1 + j * roundoff) * v := by linarith [(abs_le.mp hq).2]
  have hround : |y - q| ≤ 1 / 2 + (1 + 1 / 64) * roundoff * v := by
    have hnonneg : 0 ≤ (1 + 1 / 64) * roundoff * v :=
      mul_nonneg (mul_nonneg (by norm_num) roundoff_pos.le) hv
    refine hy.trans (max_le (by linarith) ?_)
    have hrate : 1 + j * roundoff ≤ 1 + 1 / 64 := by
      norm_num [roundoff]
      linarith
    have hmul := mul_le_mul_of_nonneg_right (hless.trans (mul_le_mul_of_nonneg_right hrate hv))
      roundoff_pos.le
    linarith
  calc |y - v| ≤ |y - q| + |q - v| := abs_sub_le y q v
    _ ≤ _ := by linarith

variable {n d u : Nat}

/-- The count that a quotient is rounded to is off by at most half of its own spacing. -/
theorem abs_sub_le_spacing_of_roundUnits (hd : 0 < d) (h : roundUnits n d = u) :
    |(u : ℚ) - n / d| ≤ 2 ^ spareBits u / 2 := by
  have hround := abs_roundUnits_sub_le_spacing n hd
  have hspare := spareBits_div_le_spareBits_roundUnits n d
  rw [h] at hround hspare
  have hspacing : (2 : ℚ) ^ spareBits (n / d) ≤ 2 ^ spareBits u :=
    pow_le_pow_right₀ one_le_two hspare
  linarith

/-- Rounding a quotient that stands for a number near a count ends near the count. -/
theorem abs_roundUnits_sub_lt {v c : ℚ} (hd : 0 < d) (hu : |(u : ℚ) - v| ≤ 2 ^ spareBits u / 2)
    (hc : 0 ≤ c) (hh : 0 ≤ h) (hroom : c + h ≤ 35 / 8)
    (hq : |(n : ℚ) / d - v| ≤ c * roundoff * v + h) :
    |(roundUnits n d : ℚ) - u| < 6 * 2 ^ spareBits u := by
  have hspacing : (1 : ℚ) ≤ 2 ^ spareBits u := one_le_pow₀ one_le_two
  have hunits : (u : ℚ) < 2 ^ 53 * 2 ^ spareBits u := by exact_mod_cast lt_two_pow_spareBits u
  have hvalue : roundoff * v ≤ 65 / 64 * 2 ^ spareBits u := by
    have hle : v ≤ 2 ^ 53 * (65 / 64) * 2 ^ spareBits u := by
      linarith [(abs_le.mp hu).1]
    calc roundoff * v ≤ roundoff * (2 ^ 53 * (65 / 64) * 2 ^ spareBits u) :=
          mul_le_mul_of_nonneg_left hle roundoff_pos.le
      _ = _ := by rw [roundoff]; ring
  have hoff : c * roundoff * v + h ≤ 65 / 64 * (35 / 8) * 2 ^ spareBits u := by
    have hfirst := mul_le_mul_of_nonneg_left hvalue hc
    have hsecond := mul_le_mul_of_nonneg_left hspacing hh
    have hsum := mul_le_mul_of_nonneg_right hroom (zero_le_one.trans hspacing)
    have hnonneg : 0 ≤ h * 2 ^ spareBits u := mul_nonneg hh (zero_le_one.trans hspacing)
    linarith
  have hround : |(roundUnits n d : ℚ) - n / d| ≤ 33 / 32 * 2 ^ spareBits u := by
    refine (abs_roundUnits_sub_le n hd).trans (max_le (by linarith) ?_)
    have hle : (n : ℚ) / d ≤ v + 5 * 2 ^ spareBits u := by linarith [(abs_le.mp hq).2]
    have hmul := mul_le_mul_of_nonneg_right hle roundoff_pos.le
    have hsmall : (5 : ℚ) * 2 ^ spareBits u * roundoff ≤ 1 / 64 * 2 ^ spareBits u := by
      rw [mul_right_comm]
      exact mul_le_mul_of_nonneg_right (by norm_num [roundoff]) (zero_le_one.trans hspacing)
    linarith
  calc |(roundUnits n d : ℚ) - u|
      ≤ |(roundUnits n d : ℚ) - n / d| + |(n : ℚ) / d - u| := abs_sub_le _ _ _
    _ ≤ |(roundUnits n d : ℚ) - n / d| + (|(n : ℚ) / d - v| + |v - u|) := by
        linarith [abs_sub_le ((n : ℚ) / d) v u]
    _ < _ := by
        rw [abs_sub_comm v]
        linarith

/-- A quotient with a little room below the limit is not rounded up to it. -/
theorem roundUnits_lt_limit (hd : 0 < d) (h : (n : ℚ) / d * (1 + roundoff) < limit) :
    roundUnits n d < limit := by
  have hlimit : (2 : ℚ) ^ 53 ≤ limit := by
    have hle : 2 ^ 53 ≤ limit := by decide +kernel
    exact_mod_cast hle
  have hround := (abs_le.mp (abs_roundUnits_sub_le n hd)).2
  have hlt : (roundUnits n d : ℚ) < limit := by
    rcases le_total (1 / 2) ((n : ℚ) / d * roundoff) with hmore | hless
    · rw [max_eq_right hmore] at hround
      linarith
    · rw [max_eq_left hless] at hround
      rw [roundoff] at hless
      linarith
  exact_mod_cast hlt

end Magnitude

namespace Binary64

open Magnitude

variable {n d : Nat}

theorem ofUnits_of_lt (negative : Bool) (h : roundUnits n d < limit) :
    ∃ m : Magnitude, ofUnits negative n d = .finite negative m ∧ m.units = roundUnits n d :=
  ⟨⟨_, shift_spareBits_dvd_roundUnits n d, h⟩, dif_pos h, rfl⟩

theorem ofUnits_eq_finite (negative : Bool) {m : Magnitude} (h : roundUnits n d = m.units) :
    ofUnits negative n d = .finite negative m := by
  obtain ⟨units, hunits⟩ := m
  subst h
  exact dif_pos hunits.2

/-- A natural number that is not too large is finite and rounded once. -/
theorem ofNat_spec {k : Nat} (hpos : 0 < n) (hk : k ≤ 308) (hle : n ≤ 10 ^ k) :
    ∃ m : Magnitude, ofNat n = .finite false m ∧ m.units = roundUnits (n * unitsPerOne) 1 ∧
      |(m.units : ℚ) - n * unitsPerOne| ≤ roundoff * (n * unitsPerOne) := by
  have hn : (1 : ℚ) ≤ n := Nat.one_le_cast.mpr hpos
  have hone : (2 : ℚ) ^ 53 ≤ unitsPerOne := by
    have hle : 2 ^ 53 ≤ unitsPerOne := by decide +kernel
    exact_mod_cast hle
  have hround := abs_roundUnits_sub_le (n * unitsPerOne) Nat.one_pos
  have hunits : (unitsPerOne : ℚ) ≤ n * unitsPerOne := le_mul_of_one_le_left (by linarith) hn
  have hlarge : 1 / 2 ≤ (n : ℚ) * unitsPerOne * roundoff := by
    rw [roundoff]
    linarith
  have hlt : roundUnits (n * unitsPerOne) 1 < limit := by
    refine roundUnits_lt_limit Nat.one_pos ?_
    have hfits : 10 ^ 308 * unitsPerOne * (2 ^ 53 + 1) < limit * 2 ^ 53 := by decide +kernel
    have hpower : n ≤ 10 ^ 308 := hle.trans (pow_le_pow_right₀ (by decide) hk)
    have hmost : n * unitsPerOne * (2 ^ 53 + 1) < limit * 2 ^ 53 :=
      Nat.lt_of_le_of_lt (Nat.mul_le_mul_right _ (Nat.mul_le_mul_right unitsPerOne hpower)) hfits
    have hcast : (n : ℚ) * unitsPerOne * (2 ^ 53 + 1) < limit * 2 ^ 53 := by exact_mod_cast hmost
    rw [Nat.cast_one, div_one, Nat.cast_mul, roundoff]
    linarith
  obtain ⟨m, hm, hvalue⟩ := ofUnits_of_lt false hlt
  refine ⟨m, hm, hvalue, ?_⟩
  rw [Nat.cast_one, div_one, Nat.cast_mul, max_eq_right hlarge, ← hvalue] at hround
  linarith

end Binary64

end WorkflowExpr
