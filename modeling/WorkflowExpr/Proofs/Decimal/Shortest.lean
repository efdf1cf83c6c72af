import Mathlib.Algebra.Order.Field.Power
import WorkflowExpr.Decimal.Shortest
import WorkflowExpr.Proofs.Binary64.Nearest

/-!
The shortest decimal of a magnitude reads back as the magnitude. A candidate from one of the
grids does because that is how it was chosen, and seventeen digits do because they miss the
value by less than half of the roundoff. On the way stand the value of a decimal, which its
normal form keeps, and the power of ten at the first digit of a quotient.
-/

namespace WorkflowExpr

namespace Decimal

def value (d : Decimal) : ℚ := d.digits * 10 ^ d.exponent

theorem denominator_pos (d : Decimal) : 0 < d.denominator := Nat.pow_pos (by decide)

theorem ten_pow_toNat (e : Int) :
    ((10 ^ e.toNat : Nat) : ℚ) = 10 ^ e * (10 ^ (-e).toNat : Nat) := by
  push_cast
  rw [← zpow_natCast, ← zpow_natCast, ← zpow_add₀ (by norm_num)]
  congr 1
  omega

theorem numerator_div_denominator (d : Decimal) :
    (d.numerator : ℚ) / d.denominator = d.value := by
  have hpos : (0 : ℚ) < d.denominator := Nat.cast_pos.mpr d.denominator_pos
  rw [div_eq_iff hpos.ne', numerator, Nat.pow_eq, Nat.cast_mul, ten_pow_toNat, value, denominator,
    Nat.pow_eq, mul_assoc]

theorem numerator_mul_div_denominator (d : Decimal) (k : Nat) :
    ((d.numerator * k : Nat) : ℚ) / d.denominator = d.value * k := by
  rw [Nat.cast_mul, mul_div_right_comm, numerator_div_denominator]

theorem value_of_nonneg {d : Decimal} (h : 0 ≤ d.exponent) :
    d.value = d.digits * 10 ^ d.exponent.natAbs := by
  have hexponent : d.exponent = (d.exponent.natAbs : Int) := by omega
  rw [value, hexponent, zpow_natCast, Int.natAbs_natCast]

theorem value_of_nonpos {d : Decimal} (h : d.exponent ≤ 0) :
    d.value = d.digits / 10 ^ d.exponent.natAbs := by
  have hexponent : d.exponent = -(d.exponent.natAbs : Int) := by omega
  rw [value, hexponent, zpow_neg, zpow_natCast, Int.natAbs_neg, Int.natAbs_natCast, div_eq_mul_inv]

/-- The normal form has the same value, with no more digits and no zero at its end. -/
theorem normalize_spec {d : Decimal} (h : 0 < d.digits) :
    d.normalize.value = d.value ∧ 0 < d.normalize.digits ∧ d.normalize.digits ≤ d.digits ∧
      d.normalize.digits % 10 ≠ 0 := by
  induction d using normalize.induct with
  | case1 d hzero ih =>
      obtain ⟨hvalue, hpos, hle, hlast⟩ := ih (by simp only; omega)
      rw [normalize, if_pos hzero]
      refine ⟨?_, hpos, Nat.le_trans hle (Nat.div_le_self _ 10), hlast⟩
      have hten : ((d.digits / 10 : Nat) : ℚ) * 10 = d.digits := by
        exact_mod_cast Nat.div_mul_cancel (Nat.dvd_of_mod_eq_zero hzero.2)
      rw [hvalue, value, value, zpow_add_one₀ (by norm_num), ← hten]
      ring
  | case2 d hlast =>
      rw [normalize, if_neg hlast]
      exact ⟨rfl, h, Nat.le_refl _, fun hzero => hlast ⟨h.ne', hzero⟩⟩

theorem pow_le_of_digitCount {n k : Nat} (h : digitCount n = k + 1) : 10 ^ k ≤ n := by
  by_contra hless
  have hle := (digitCount_le_iff n k).mpr (by rw [Nat.pow_eq]; omega)
  omega

theorem lt_pow_of_digitCount {n k : Nat} (h : digitCount n = k) : n < 10 ^ k := by
  have hlt := (digitCount_le_iff n k).mp (Nat.le_of_eq h)
  rwa [Nat.pow_eq] at hlt

/-- Zeros at the end count as digits. -/
theorem mul_pow_lt {n k count : Nat} (h : digitCount n + k ≤ count) : n * 10 ^ k < 10 ^ count := by
  calc n * 10 ^ k < 10 ^ digitCount n * 10 ^ k :=
        Nat.mul_lt_mul_of_pos_right (lt_pow_of_digitCount rfl) (Nat.pow_pos (by decide))
    _ = 10 ^ (digitCount n + k) := (Nat.pow_add _ _ _).symm
    _ ≤ 10 ^ count := Nat.pow_le_pow_right (by decide) h

theorem exists_digitCount {n : Nat} (h : 0 < n) : ∃ k, digitCount n = k + 1 := by
  refine ⟨digitCount n - 1, ?_⟩
  have hpos : ¬ digitCount n ≤ 0 := by
    rw [digitCount_le_iff]
    simp only [Nat.pow_eq, Nat.pow_zero]
    omega
  omega

/-- The power of ten at the first digit of a decimal is the greatest below it. -/
theorem leadingExponent_spec {d : Decimal} (h : 0 < d.digits) :
    (10 : ℚ) ^ d.leadingExponent ≤ d.value ∧ d.value < 10 ^ (d.leadingExponent + 1) := by
  have hpower : (0 : ℚ) < 10 ^ d.exponent := by positivity
  obtain ⟨k, hk⟩ := exists_digitCount h
  have hlow : ((10 : ℚ) ^ k) ≤ d.digits := by exact_mod_cast pow_le_of_digitCount hk
  have hhigh : (d.digits : ℚ) < 10 ^ (k + 1) := by exact_mod_cast lt_pow_of_digitCount hk
  have hleading : d.leadingExponent = (k : Int) + d.exponent := by
    rw [leadingExponent, hk]
    omega
  have hnext : d.leadingExponent + 1 = ((k + 1 : Nat) : Int) + d.exponent := by
    rw [hleading]
    omega
  rw [hnext, hleading, zpow_add₀ (by norm_num), zpow_add₀ (by norm_num), zpow_natCast,
    zpow_natCast, value]
  exact ⟨mul_le_mul_of_nonneg_right hlow hpower.le, mul_lt_mul_of_pos_right hhigh hpower⟩

/-- The power of ten at the first digit of a quotient is the greatest below it. -/
theorem quotientExponent_spec {n d : Nat} (hn : 0 < n) (hd : 0 < d) :
    (10 : ℚ) ^ quotientExponent n d ≤ n / d ∧ (n : ℚ) / d < 10 ^ (quotientExponent n d + 1) := by
  have hdpos : (0 : ℚ) < d := Nat.cast_pos.mpr hd
  rw [le_div_iff₀ hdpos, div_lt_iff₀ hdpos]
  by_cases hle : d ≤ n
  · obtain ⟨k, hk⟩ := exists_digitCount (Nat.div_pos hle hd)
    have hlow := (Nat.le_div_iff_mul_le hd).mp (pow_le_of_digitCount hk)
    have hhigh := (Nat.div_lt_iff_lt_mul hd).mp (lt_pow_of_digitCount hk)
    have hexponent : quotientExponent n d = k := by
      rw [quotientExponent, if_pos hle, hk]
      omega
    rw [hexponent, ← Nat.cast_add_one, zpow_natCast, zpow_natCast]
    exact ⟨by exact_mod_cast hlow, by exact_mod_cast hhigh⟩
  · obtain ⟨k, hk⟩ := exists_digitCount (Nat.div_pos (by omega : n ≤ d - 1) hn)
    have hlow := (Nat.le_div_iff_mul_le hn).mp (pow_le_of_digitCount hk)
    have hhigh := (Nat.div_lt_iff_lt_mul hn).mp (lt_pow_of_digitCount hk)
    have hexponent : quotientExponent n d = -((k + 1 : Nat) : Int) := by
      rw [quotientExponent, if_neg hle, hk]
    have hnext : quotientExponent n d + 1 = -(k : Int) := by
      rw [hexponent]
      omega
    rw [hnext, hexponent, zpow_neg, zpow_neg, zpow_natCast, zpow_natCast,
      inv_mul_le_iff₀ (by positivity), lt_inv_mul_iff₀ (by positivity)]
    have hlow' : 10 ^ k * n < d := by omega
    have hhigh' : d ≤ 10 ^ (k + 1) * n := by omega
    exact ⟨by exact_mod_cast hhigh', by exact_mod_cast hlow'⟩

theorem stepsOf_pos {n d : Nat} (hd : 0 < d) (step : Int) : 0 < (stepsOf n d step).2 :=
  Nat.mul_pos hd (Nat.pow_pos (by decide))

theorem stepsOf_div (n d : Nat) (step : Int) :
    ((stepsOf n d step).1 : ℚ) / (stepsOf n d step).2 = n / d / 10 ^ step := by
  have hpower : ((10 ^ (-step).toNat : Nat) : ℚ) ≠ 0 := by positivity
  rw [stepsOf, Nat.pow_eq, Nat.pow_eq, Nat.cast_mul, Nat.cast_mul, ten_pow_toNat step,
    ← mul_assoc, mul_div_mul_right _ _ hpower, div_div]

/-- On the grid of a count of digits a quotient lies below the power of ten of that count. -/
theorem stepsOf_div_lt {n d : Nat} (hn : 0 < n) (hd : 0 < d) (count : Nat) :
    (stepsOf n d (quotientExponent n d - count + 1)).1 /
      (stepsOf n d (quotientExponent n d - count + 1)).2 < 10 ^ count := by
  have hsteps := stepsOf_div n d (quotientExponent n d - count + 1)
  have hpos := stepsOf_pos (n := n) hd (quotientExponent n d - count + 1)
  have hpower : (10 : ℚ) ^ (quotientExponent n d + 1) =
      10 ^ count * 10 ^ (quotientExponent n d - count + 1) := by
    rw [← zpow_natCast, ← zpow_add₀ (by norm_num)]
    congr 1
    omega
  have hlt := (quotientExponent_spec hn hd).2
  rw [hpower, ← div_lt_iff₀ (by positivity), ← hsteps, div_lt_iff₀ (Nat.cast_pos.mpr hpos)] at hlt
  rw [Nat.div_lt_iff_lt_mul hpos]
  exact_mod_cast hlt

/-- A step of the grid is small against the quotient. -/
theorem step_mul_le {n d : Nat} (hn : 0 < n) (hd : 0 < d) (count : Nat) :
    (10 : ℚ) ^ (quotientExponent n d - (count + 1 : Nat) + 1) * 10 ^ count ≤ n / d := by
  refine le_trans (le_of_eq ?_) (quotientExponent_spec hn hd).1
  rw [← zpow_natCast, ← zpow_add₀ (by norm_num)]
  congr 1
  omega

/-- A distance measured in steps. -/
theorem abs_mul_step_sub (n d : Nat) (step : Int) (k : ℚ) :
    |k * 10 ^ step - n / d| =
      |k - (stepsOf n d step).1 / (stepsOf n d step).2| * 10 ^ step := by
  have hpower : (0 : ℚ) < 10 ^ step := by positivity
  have hscaled : k * 10 ^ step - n / d = (k - n / d / 10 ^ step) * 10 ^ step := by
    field_simp
  rw [hscaled, abs_mul, abs_of_pos hpower, stepsOf_div]

/-- Rounding to the grid misses by at most half a step. -/
theorem abs_roundSteps_sub_le (tie : Tie) (n : Nat) {d : Nat} (hd : 0 < d) (step : Int) :
    |(roundQuotient tie (stepsOf n d step).1 (stepsOf n d step).2 : ℚ) * 10 ^ step - n / d| ≤
      10 ^ step / 2 := by
  have hround := abs_roundQuotient_sub_le tie (stepsOf n d step).1 (stepsOf_pos (n := n) hd step)
  have hpower : (0 : ℚ) < 10 ^ step := by positivity
  rw [abs_mul_step_sub]
  linarith [mul_le_mul_of_nonneg_right hround hpower.le]

/-- Some digit is left after rounding to a count of digits. -/
theorem roundSteps_pos (tie : Tie) {n d : Nat} (hn : 0 < n) (hd : 0 < d) (count : Nat) :
    0 < roundQuotient tie (stepsOf n d (quotientExponent n d - (count + 1 : Nat) + 1)).1
      (stepsOf n d (quotientExponent n d - (count + 1 : Nat) + 1)).2 := by
  have hstep := step_mul_le hn hd count
  generalize quotientExponent n d - (count + 1 : Nat) + 1 = step at *
  have hround := abs_roundSteps_sub_le tie n hd step
  have hquotient : (0 : ℚ) < n / d := div_pos (Nat.cast_pos.mpr hn) (Nat.cast_pos.mpr hd)
  have hpower : (0 : ℚ) < 10 ^ step := by positivity
  rw [Nat.pos_iff_ne_zero]
  intro hzero
  rw [hzero, Nat.cast_zero, zero_mul, zero_sub, abs_neg, abs_of_pos hquotient] at hround
  have hone : (1 : ℚ) ≤ 10 ^ count := one_le_pow₀ (by norm_num)
  linarith [mul_le_mul_of_nonneg_left hone hpower.le]

theorem value_roundSignificant (tie : Tie) {n d : Nat} (hn : 0 < n) (hd : 0 < d) (count : Nat) :
    (roundSignificant tie (count + 1) n d).value =
      roundQuotient tie (stepsOf n d (quotientExponent n d - (count + 1 : Nat) + 1)).1
          (stepsOf n d (quotientExponent n d - (count + 1 : Nat) + 1)).2 *
        10 ^ (quotientExponent n d - (count + 1 : Nat) + 1) :=
  (normalize_spec (d := ⟨_, _⟩) (roundSteps_pos tie hn hd count)).1

/-- Rounding to a count of digits misses by at most half a step, and a step is small against
the value. -/
theorem roundSignificant_spec (tie : Tie) {n d : Nat} (hn : 0 < n) (hd : 0 < d) (count : Nat) :
    |(roundSignificant tie (count + 1) n d).value - n / d| ≤ n / d / (2 * 10 ^ count) ∧
      0 < (roundSignificant tie (count + 1) n d).digits ∧
      (roundSignificant tie (count + 1) n d).digits ≤ 10 ^ (count + 1) ∧
      (roundSignificant tie (count + 1) n d).digits % 10 ≠ 0 := by
  have hstep := step_mul_le hn hd count
  have hpos := roundSteps_pos tie hn hd count
  have hfew := stepsOf_div_lt hn hd (count + 1)
  rw [value_roundSignificant tie hn hd, roundSignificant]
  generalize quotientExponent n d - (count + 1 : Nat) + 1 = step at *
  have hround := abs_roundSteps_sub_le tie n hd step
  have hupper := roundQuotient_le tie (stepsOf n d step).1 (stepsOf n d step).2
  generalize roundQuotient tie (stepsOf n d step).1 (stepsOf n d step).2 = first at *
  have hle : first ≤ 10 ^ (count + 1) := by omega
  obtain ⟨-, hdigits, hmost, hlast⟩ := normalize_spec (d := ⟨first, step⟩) hpos
  refine ⟨hround.trans ?_, hdigits, hmost.trans hle, hlast⟩
  rw [div_le_div_iff₀ two_pos (by positivity)]
  linarith

end Decimal

namespace Magnitude

variable {m : Magnitude} {d : Decimal}

/-- Reading back rounds the value of a decimal. -/
theorem readsBack_iff {n k : Nat} (hk : 0 < k) (h : (n : ℚ) / k = d.value * unitsPerOne) :
    m.readsBack d = true ↔ roundUnits n k = m.units := by
  rw [← d.numerator_mul_div_denominator] at h
  rw [readsBack, beq_iff_eq, roundUnits_congr d.denominator_pos hk h.symm]

theorem readsBack_congr {d' : Decimal} (h : d.value = d'.value) :
    m.readsBack d = m.readsBack d' := by
  have hvalue := d.numerator_mul_div_denominator unitsPerOne
  rw [h] at hvalue
  rw [Bool.eq_iff_iff, readsBack_iff d.denominator_pos hvalue, readsBack, beq_iff_eq]

theorem choose?_spec {tie : Tie} {reads : Decimal → Bool} {step : Int} {steps : Nat × Nat}
    (h : choose? tie reads step steps = some d) :
    reads d = true ∧ d.digits ≤ steps.1 / steps.2 + 1 := by
  rw [choose?] at h
  split at h
  case h_1 hlower hupper =>
    obtain rfl := Option.some.inj h
    rcases roundQuotient_eq_or tie steps.1 steps.2 with ⟨hround, -⟩ | ⟨hround, -⟩
    · rw [hround]
      exact ⟨hlower, Nat.le_succ _⟩
    · rw [hround]
      exact ⟨hupper, Nat.le_refl _⟩
  case h_2 hlower _ =>
    obtain rfl := Option.some.inj h
    exact ⟨hlower, Nat.le_succ _⟩
  case h_3 _ hupper =>
    obtain rfl := Option.some.inj h
    exact ⟨hupper, Nat.le_refl _⟩
  case h_4 => cases h

/-- A candidate from a grid reads back and has no more digits than the grid. -/
theorem neighbour?_spec {tie : Tie} {count : Nat} (hm : 0 < m.units)
    (h : m.neighbour? tie count = some d) : m.readsBack d = true ∧ d.digits ≤ 10 ^ count := by
  obtain ⟨hreads, hdigits⟩ := choose?_spec h
  exact ⟨hreads, hdigits.trans (Decimal.stepsOf_div_lt hm unitsPerOne_pos count)⟩

/-- No value reads back from nothing. -/
theorem digits_pos_of_readsBack (hm : 0 < m.units) (h : m.readsBack d = true) : 0 < d.digits := by
  rw [Nat.pos_iff_ne_zero]
  intro hzero
  rw [readsBack, beq_iff_eq, Decimal.numerator, hzero, Nat.zero_mul, Nat.zero_mul] at h
  have hround : roundUnits 0 d.denominator = 0 := by
    have hvalue : ((0 : Nat) : ℚ) / d.denominator = (0 : Nat) / (1 : Nat) := by simp
    rw [roundUnits_congr d.denominator_pos Nat.one_pos hvalue]
    exact roundUnits_of_representable representable_zero
  omega

/-- Seventeen digits read back. -/
theorem readsBack_roundSignificant (tie : Tie) (hm : 0 < m.units) :
    m.readsBack (Decimal.roundSignificant tie 17 m.units unitsPerOne) = true := by
  have hone := cast_unitsPerOne_pos
  have hunits : (0 : ℚ) < m.units := Nat.cast_pos.mpr hm
  obtain ⟨herror, -⟩ := Decimal.roundSignificant_spec tie hm unitsPerOne_pos 16
  generalize Decimal.roundSignificant tie (16 + 1) m.units unitsPerOne = d at herror
  have hvalue := d.numerator_mul_div_denominator unitsPerOne
  rw [readsBack_iff d.denominator_pos hvalue]
  refine roundUnits_eq_of_near d.denominator_pos m.two_pow_spareBits_dvd ?_
  have hscaled : (m.units : ℚ) - d.value * unitsPerOne =
      -((d.value - m.units / unitsPerOne) * unitsPerOne) := by
    field_simp
    ring
  rw [hvalue, hscaled, abs_neg, abs_mul, abs_of_pos hone, roundoff]
  calc _ ≤ (m.units : ℚ) / unitsPerOne / (2 * 10 ^ 16) * unitsPerOne :=
        mul_le_mul_of_nonneg_right herror hone.le
    _ = m.units * (1 / (2 * 10 ^ 16)) := by field_simp
    _ < m.units * (1 / 2 ^ 53 / 2) := mul_lt_mul_of_pos_left (by norm_num) hunits

/-- The shortest decimal of a positive magnitude reads back as the magnitude. It has at most
seventeen digits, or is a power of ten, and no zero at its end. -/
theorem shortest_spec (tie : Tie) (hm : 0 < m.units) :
    m.readsBack (m.shortest tie) = true ∧ 0 < (m.shortest tie).digits ∧
      (m.shortest tie).digits ≤ 10 ^ 17 ∧ (m.shortest tie).digits % 10 ≠ 0 := by
  have hround := Decimal.roundSignificant_spec tie hm unitsPerOne_pos 16
  rw [shortest]
  cases hfound : (List.range' 1 16).findSome? (m.neighbour? tie) with
  | none => exact ⟨readsBack_roundSignificant tie hm, hround.2⟩
  | some d =>
      obtain ⟨count, hcount, hd⟩ := List.exists_of_findSome?_eq_some hfound
      obtain ⟨hreads, hdigits⟩ := neighbour?_spec hm hd
      obtain ⟨hvalue, hpos, hle, hlast⟩ :=
        Decimal.normalize_spec (digits_pos_of_readsBack hm hreads)
      have hpower : 10 ^ count ≤ 10 ^ 17 := by
        refine Nat.pow_le_pow_right (by decide) ?_
        rw [List.mem_range'_1] at hcount
        omega
      exact ⟨(readsBack_congr hvalue).trans hreads, hpos, hle.trans (hdigits.trans hpower), hlast⟩

end Magnitude

end WorkflowExpr
