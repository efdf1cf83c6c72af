import WorkflowExpr.Proofs.Numeral.WholeTexts
import WorkflowExpr.Proofs.Numeral.Writing

/-!
The text of a number does not change when it is read and written again. Reading gives the number
nearest to the fifteen digits of the text, which need not be the number that was written. As far
as its digits are coarser than the numbers around it, rounding it to fifteen digits finds them
again; where they are finer, as among the least numbers, it is the number that was written. The
one exception are numbers so large that their fifteen digits lie beyond the finite range.
-/

namespace WorkflowExpr

namespace Decimal

section Canonical

variable {d d' : Decimal}

/-- Without a zero at the end of its digits a decimal has the greatest exponent of its value. -/
theorem exponent_le_of_value_eq (hlast : d'.digits % 10 ≠ 0) (h : d.value = d'.value) :
    d.exponent ≤ d'.exponent := by
  by_contra hmore
  have hexponent : d.exponent = d'.exponent + ((d.exponent - d'.exponent - 1).toNat + 1 : Nat) := by
    omega
  generalize (d.exponent - d'.exponent - 1).toNat = k at hexponent
  have hpower : (10 : ℚ) ^ d'.exponent ≠ 0 := by positivity
  have hdigits : (d'.digits : ℚ) = (d.digits * 10 ^ k * 10 : Nat) := by
    apply mul_right_cancel₀ hpower
    rw [← value, ← h, value, hexponent, zpow_add₀ (by norm_num), zpow_natCast]
    push_cast
    ring
  have hdigits' : d'.digits = d.digits * 10 ^ k * 10 := by exact_mod_cast hdigits
  apply hlast
  rw [hdigits', Nat.mul_mod_left]

/-- Decimals of one value without a zero at the end are the same. -/
theorem eq_of_value_eq (hlast : d.digits % 10 ≠ 0) (hlast' : d'.digits % 10 ≠ 0)
    (h : d.value = d'.value) : d = d' := by
  have hexponent : d.exponent = d'.exponent :=
    le_antisymm (exponent_le_of_value_eq hlast' h) (exponent_le_of_value_eq hlast h.symm)
  have hpower : (10 : ℚ) ^ d'.exponent ≠ 0 := by positivity
  have hdigits : (d.digits : ℚ) = d'.digits := by
    apply mul_right_cancel₀ hpower
    rw [← value, ← h, value, hexponent]
  cases d
  cases d'
  simp only [mk.injEq]
  exact ⟨by exact_mod_cast hdigits, hexponent⟩

end Canonical

namespace RoundsToDigits

variable {count k : Nat} {q : ℚ} {d : Decimal} {s : Int}

theorem pos (h : RoundsToDigits count q d) : 0 < q := by
  cases h with
  | mk leading => exact lt_of_lt_of_le (by positivity) leading.1

/-- A multiple nearer than half a step is the rounding. -/
theorem of_lt (leading : (10 : ℚ) ^ (s + count) ≤ q ∧ q < 10 ^ (s + count + 1))
    (multiple : d.value = k * 10 ^ s) (near : |d.value - q| < 10 ^ s / 2) :
    RoundsToDigits (count + 1) q d := by
  have hstep : s + count - (count + 1 : Nat) + 1 = s := by
    push_cast
    omega
  apply RoundsToDigits.mk leading
  · rw [hstep]
    exact multiple
  · rw [hstep]
    exact near.le
  · intro hhalf
    rw [hstep] at hhalf
    exact absurd hhalf near.ne

/-- Half a step around multiples keeps them apart. -/
theorem le_of_abs_lt_half {p : ℚ} {j : Nat} (hp : 0 < p) (hnear : |k * p - q| < p / 2) :
    (q < j * p → k ≤ j) ∧ (j * p ≤ q → j ≤ k) := by
  have habs := abs_lt.mp hnear
  constructor <;> intro hq
  · have hless : (k : ℚ) * p < (j + 1 : Nat) * p := by
      push_cast
      linarith
    have hnat : (k : ℚ) < (j + 1 : Nat) := lt_of_mul_lt_mul_right hless hp.le
    exact Nat.le_of_lt_succ (by exact_mod_cast hnat)
  · have hless : (j : ℚ) * p < (k + 1 : Nat) * p := by
      push_cast
      linarith
    have hnat : (j : ℚ) < (k + 1 : Nat) := lt_of_mul_lt_mul_right hless hp.le
    exact Nat.le_of_lt_succ (by exact_mod_cast hnat)

/-- A value near a decimal of some digits is rounded to the decimal. Only just below a power of
ten, where the steps are ten times smaller, does it have to be nearer. -/
theorem of_near (hvalue : d.value = k * 10 ^ s) (hlow : 10 ^ count ≤ k)
    (hhigh : k ≤ 10 ^ (count + 1)) (hnear : |d.value - q| < 10 ^ s / 2)
    (hbelow : k = 10 ^ count → q < d.value → |d.value - q| < 10 ^ (s - 1) / 2) :
    RoundsToDigits (count + 1) q d := by
  have hplace : ∀ j : Nat, (10 : ℚ) ^ (s + j) = (10 ^ j : Nat) * 10 ^ s := by
    intro j
    rw [zpow_add₀ (by norm_num), zpow_natCast, mul_comm]
    push_cast
    rfl
  have hone : (1 : ℚ) ≤ (10 ^ count : Nat) := by exact_mod_cast Nat.one_le_pow _ _ (by decide)
  have hstep : (0 : ℚ) < 10 ^ s := by positivity
  have hmost := mul_le_mul_of_nonneg_right hone hstep.le
  have habs := abs_lt.mp hnear
  have happart := fun j => le_of_abs_lt_half (j := j) hstep (hvalue ▸ hnear)
  rcases lt_or_ge q (10 ^ (s + count)) with hless | hmore
  · -- Below a power of ten the decimal is that power, and a step is a tenth.
    rw [hplace] at hless
    obtain rfl : k = 10 ^ count := le_antisymm ((happart _).1 hless) hlow
    rw [← hvalue] at hless
    have htenth : (10 : ℚ) ^ s = 10 ^ (s - 1) * 10 := by
      rw [← zpow_add_one₀ (by norm_num), sub_add_cancel]
    have hfirst : (10 : ℚ) ^ (s - 1 + count) * 10 = d.value := by
      rw [hvalue, ← hplace, ← zpow_add_one₀ (by norm_num)]
      congr 1
      omega
    apply of_lt (s := s - 1) (k := 10 ^ (count + 1)) ⟨by linarith, ?_⟩
    · rw [hvalue, htenth, Nat.pow_succ]
      push_cast
      ring
    · exact hbelow rfl hless
    · rw [zpow_add_one₀ (by norm_num), hfirst]
      exact hless
  rcases lt_or_ge q (10 ^ (s + count + 1)) with hinside | hover
  · exact of_lt ⟨hmore, hinside⟩ hvalue hnear
  · -- Above the digits the decimal is the next power of ten, and a step is ten.
    have hnext := hplace (count + 1)
    rw [Nat.cast_succ, ← add_assoc] at hnext
    rw [hnext] at hover
    obtain rfl : k = 10 ^ (count + 1) := le_antisymm hhigh ((happart _).2 hover)
    have hten : (10 : ℚ) ^ (s + 1) = 10 ^ s * 10 := zpow_add_one₀ (by norm_num) s
    have hlast : (10 : ℚ) ^ (s + 1 + count) = d.value := by
      rw [hvalue, ← hnext]
      congr 1
      omega
    rw [← hvalue] at hover
    apply of_lt (s := s + 1) (k := 10 ^ count) ⟨hlast.le.trans hover, ?_⟩
    · rw [hvalue, hten, Nat.pow_succ]
      push_cast
      ring
    · linarith
    · rw [zpow_add_one₀ (by norm_num), hlast]
      rw [Nat.pow_succ] at hvalue
      push_cast at hvalue hmost
      linarith

end RoundsToDigits

/-- A quotient keeps its first digit when it is rounded to a count of digits. -/
theorem roundSteps_bounds (tie : Tie) {n d : Nat} (hn : 0 < n) (hd : 0 < d) (count : Nat) :
    10 ^ count ≤ roundQuotient tie
        (stepsOf n d (quotientExponent n d - (count + 1 : Nat) + 1)).1
        (stepsOf n d (quotientExponent n d - (count + 1 : Nat) + 1)).2 ∧
      roundQuotient tie
        (stepsOf n d (quotientExponent n d - (count + 1 : Nat) + 1)).1
        (stepsOf n d (quotientExponent n d - (count + 1 : Nat) + 1)).2 ≤ 10 ^ (count + 1) := by
  have hmost := step_mul_le hn hd count
  have hfew := stepsOf_div_lt hn hd (count + 1)
  generalize quotientExponent n d - (count + 1 : Nat) + 1 = step at *
  have hsteps := stepsOf_div n d step
  have hpos := stepsOf_pos (n := n) hd step
  have hless := div_le_roundQuotient tie (stepsOf n d step).1 (stepsOf n d step).2
  have hmore := roundQuotient_le tie (stepsOf n d step).1 (stepsOf n d step).2
  constructor
  · apply le_trans _ hless
    rw [Nat.le_div_iff_mul_le hpos]
    rw [mul_comm, ← le_div_iff₀ (by positivity), ← hsteps,
      le_div_iff₀ (Nat.cast_pos.mpr hpos)] at hmost
    exact_mod_cast hmost
  · omega

end Decimal

namespace Magnitude

variable {m m' : Magnitude} {d : Decimal} {q : ℚ} {u k : Nat} {s : Int}

/-- A count nearer than half a unit is the rounding. -/
theorem RoundsTo.of_lt_half (hu : Fits u) (h : |(u : ℚ) - q| < 1 / 2) : RoundsTo q u := by
  have hfar : ∀ v : Nat, v ≠ u → |(u : ℚ) - q| < |(v : ℚ) - q| := by
    intro v hne
    have hapart : (1 : ℚ) ≤ |(v : ℚ) - u| := by
      have hint : 1 ≤ |(v : ℤ) - u| := Int.one_le_abs (sub_ne_zero.mpr (by exact_mod_cast hne))
      exact_mod_cast hint
    have hsum := abs_sub_le (v : ℚ) q u
    rw [abs_sub_comm q] at hsum
    linarith
  apply RoundsTo.mk hu
  · intro v hv
    by_cases hne : v = u
    · rw [hne]
    · exact (hfar v hne).le
  · intro v hv hne heq
    exact absurd heq (hfar v hne).ne'

/-- A distance counted in units. -/
theorem abs_units_sub (q : ℚ) (u : Nat) :
    |(u : ℚ) - q * unitsPerOne| = |q - u / unitsPerOne| * unitsPerOne := by
  have hone := cast_unitsPerOne_pos
  have hdiff : (u : ℚ) - q * unitsPerOne = -((q - u / unitsPerOne) * unitsPerOne) := by
    field_simp
    ring
  rw [hdiff, abs_neg, abs_mul, abs_of_pos hone]

/-- How far a decimal is from the count that it is read as. -/
theorem RoundsTo.abs_sub_value_le (h : RoundsTo (d.value * unitsPerOne) u) :
    |(u : ℚ) - d.value * unitsPerOne| ≤ max (1 / 2) (d.value * unitsPerOne * roundoff) := by
  obtain rfl := h.unique (Decimal.roundsTo_value d)
  rw [← Decimal.numerator_mul_div_denominator]
  exact abs_roundUnits_sub_le _ d.denominator_pos

/-- The power of ten `10 ^ -323` is more than two units, and `10 ^ -324` is none. -/
theorem step_cast_bounds :
    (2 : ℚ) < 10 ^ (-323 : Int) * unitsPerOne ∧ (10 : ℚ) ^ (-324 : Int) * unitsPerOne < 1 := by
  have hlow : 2 * 10 ^ 323 < unitsPerOne := by decide +kernel
  have hhigh : unitsPerOne < 10 ^ 324 := by decide +kernel
  constructor
  · rw [zpow_neg, ← div_eq_inv_mul, lt_div_iff₀ (by positivity)]
    exact_mod_cast hlow
  · rw [zpow_neg, inv_mul_lt_iff₀ (by positivity), mul_one]
    exact_mod_cast hhigh

theorem one_lt_half_step (hs : -323 ≤ s) : (1 : ℚ) < 10 ^ s * unitsPerOne / 2 := by
  have hpower : (10 : ℚ) ^ (-323 : Int) ≤ 10 ^ s := zpow_le_zpow_right₀ (by norm_num) hs
  have hunits := mul_le_mul_of_nonneg_right hpower cast_unitsPerOne_pos.le
  linarith [step_cast_bounds.1]

/-- A decimal of fifteen digits whose step is more than two units is less than half a step from
the count that it is read as. -/
theorem RoundsTo.near_step (h : RoundsTo (d.value * unitsPerOne) u) (hs : -323 ≤ s)
    (hvalue : d.value = k * 10 ^ s) (hhigh : k ≤ 10 ^ 15) :
    |(u : ℚ) - d.value * unitsPerOne| < 10 ^ s * unitsPerOne / 2 := by
  have hstep := one_lt_half_step hs
  have hk : (k : ℚ) ≤ 10 ^ 15 := by exact_mod_cast hhigh
  apply lt_of_le_of_lt h.abs_sub_value_le
  apply max_lt (by linarith)
  have hmul := mul_le_mul_of_nonneg_right hk (by linarith : 0 ≤ 10 ^ s * (unitsPerOne : ℚ))
  rw [hvalue, mul_assoc, roundoff]
  linarith

/-- The power of ten `10 ^ -309` is read as a count above it. -/
theorem roundsTo_powerMinus309 :
    RoundsTo (10 ^ (-309 : Int) * unitsPerOne) 202402253307311 ∧
      (10 : ℚ) ^ (-309 : Int) * unitsPerOne < 202402253307311 := by
  have hunits : unitsPerOne < 202402253307311 * 10 ^ 309 ∧
      202402253307311 * 10 ^ 309 * 2 < unitsPerOne * 2 + 10 ^ 309 := by
    decide +kernel
  have hbelow : (10 : ℚ) ^ (-309 : Int) * unitsPerOne < 202402253307311 := by
    rw [zpow_neg, inv_mul_lt_iff₀ (by positivity), mul_comm]
    exact_mod_cast hunits.1
  have hnear : (202402253307311 : ℚ) < 10 ^ (-309 : Int) * unitsPerOne + 1 / 2 := by
    rw [zpow_neg, ← sub_lt_iff_lt_add, lt_inv_mul_iff₀ (by positivity)]
    have hcast : (202402253307311 * 10 ^ (309 : Int) * 2 : ℚ) <
        unitsPerOne * 2 + 10 ^ (309 : Int) := by
      exact_mod_cast hunits.2
    generalize (10 : ℚ) ^ (309 : Int) = power at hcast ⊢
    linarith
  have hfits : Fits 202402253307311 := fits_mul_two_pow (k := 202402253307311) (by norm_num) 0
  refine ⟨RoundsTo.of_lt_half hfits ?_, hbelow⟩
  rw [Nat.cast_ofNat, abs_of_pos (by linarith)]
  linarith

/-- Just below a power of ten the steps are ten times smaller. The count that the power is read
as is less than half of such a step away, if it lies below it at all. -/
theorem RoundsTo.near_tenth (h : RoundsTo (d.value * unitsPerOne) u) (hs : -323 ≤ s)
    (hvalue : d.value = (10 ^ 14 : Nat) * 10 ^ s) (hbelow : (u : ℚ) < d.value * unitsPerOne) :
    |(u : ℚ) - d.value * unitsPerOne| < 10 ^ (s - 1) * unitsPerOne / 2 := by
  have hpower : d.value = 10 ^ (s + 14) := by
    rw [hvalue, zpow_add₀ (by norm_num), mul_comm]
    norm_cast
  -- Only here is a step more than a unit and a tenth of it less.
  have hne : s ≠ -323 := by
    rintro rfl
    rw [hpower] at h hbelow
    obtain ⟨hrounds, habove⟩ := roundsTo_powerMinus309
    rw [h.unique hrounds] at hbelow
    exact absurd hbelow habove.not_gt
  have htenth := one_lt_half_step (s := s - 1) (by omega)
  apply lt_of_le_of_lt h.abs_sub_value_le
  apply max_lt (by linarith)
  have hten : (10 : ℚ) ^ s = 10 ^ (s - 1) * 10 := by
    rw [← zpow_add_one₀ (by norm_num), sub_add_cancel]
  rw [hvalue, hten, roundoff]
  push_cast
  linarith

/-- The digits of a decimal of fifteen digits are found again in the number that it is read as,
if their step is more than a unit. -/
theorem RoundsTo.roundsToDigits (h : RoundsTo (d.value * unitsPerOne) u) (hs : -323 ≤ s)
    (hvalue : d.value = k * 10 ^ s) (hlow : 10 ^ 14 ≤ k) (hhigh : k ≤ 10 ^ 15) :
    d.RoundsToDigits 15 (u / unitsPerOne) := by
  have hone := cast_unitsPerOne_pos
  have hscale : ∀ bound : ℚ, |(u : ℚ) - d.value * unitsPerOne| < bound * unitsPerOne / 2 →
      |d.value - u / unitsPerOne| < bound / 2 := by
    intro bound hunits
    rw [abs_units_sub, mul_div_right_comm] at hunits
    exact lt_of_mul_lt_mul_right hunits hone.le
  apply Decimal.RoundsToDigits.of_near hvalue hlow hhigh
  · apply hscale
    exact h.near_step hs hvalue hhigh
  · rintro rfl hbelow
    apply hscale
    rw [div_lt_iff₀ hone] at hbelow
    exact h.near_tenth hs hvalue hbelow

/-- Digits finer than the units are read as the count that they were rounded from. -/
theorem RoundsTo.eq_of_fine (h : RoundsTo (q * unitsPerOne) m'.units) (hs : s < -323)
    (hnear : |q - m.units / unitsPerOne| ≤ 10 ^ s / 2) : m' = m := by
  have hone := cast_unitsPerOne_pos
  have hpower : (10 : ℚ) ^ s ≤ 10 ^ (-324 : Int) :=
    zpow_le_zpow_right₀ (by norm_num) (by omega)
  have hunits := mul_le_mul_of_nonneg_right hpower hone.le
  have hscaled := mul_le_mul_of_nonneg_right hnear hone.le
  rw [← abs_units_sub] at hscaled
  have hfine : |(m.units : ℚ) - q * unitsPerOne| < 1 / 2 := by
    linarith [step_cast_bounds.2]
  exact eq_of_units (h.unique (RoundsTo.of_lt_half m.two_pow_spareBits_dvd hfine))

/-- Rounding to fifteen digits, reading these and rounding again gives the same digits. -/
theorem roundSignificant_read (hm : 0 < m.units)
    (h : RoundsTo ((Decimal.roundSignificant .toEven 15 m.units unitsPerOne).value * unitsPerOne)
      m'.units) :
    0 < m'.units ∧ Decimal.roundSignificant .toEven 15 m'.units unitsPerOne =
      Decimal.roundSignificant .toEven 15 m.units unitsPerOne := by
  have hvalue := Decimal.value_roundSignificant .toEven hm unitsPerOne_pos 14
  have hnear := Decimal.abs_roundSteps_sub_le .toEven m.units unitsPerOne_pos
    (Decimal.quotientExponent m.units unitsPerOne - (14 + 1 : Nat) + 1)
  obtain ⟨hlow, hhigh⟩ := Decimal.roundSteps_bounds .toEven hm unitsPerOne_pos 14
  obtain ⟨-, -, -, hlast⟩ := Decimal.roundSignificant_spec .toEven hm unitsPerOne_pos 14
  rw [← hvalue] at hnear
  generalize Decimal.quotientExponent m.units unitsPerOne - (14 + 1 : Nat) + 1 = s at *
  rcases lt_or_ge s (-323) with hfine | hcoarse
  · obtain rfl := h.eq_of_fine hfine hnear
    exact ⟨hm, rfl⟩
  · have hdigits := h.roundsToDigits hcoarse hvalue hlow hhigh
    have hm' : 0 < m'.units := by
      have hpos := hdigits.pos
      rw [div_pos_iff_of_pos_right cast_unitsPerOne_pos] at hpos
      exact_mod_cast hpos
    refine ⟨hm', ?_⟩
    obtain ⟨-, -, -, hlast'⟩ := Decimal.roundSignificant_spec .toEven hm' unitsPerOne_pos 14
    apply Decimal.eq_of_value_eq hlast' hlast
    apply Decimal.RoundsToDigits.value_eq _ hdigits
    exact Decimal.roundsToDigits_roundSignificant hm' unitsPerOne_pos 14

end Magnitude

namespace Numeral

open Text

variable {negative : Bool} {d : Decimal} {text : List Char} {m : Magnitude}

section Reading

/-- The text of a number other than zero writes its fifteen digits. -/
theorem decimalText_write_finite (hm : 0 < m.units) (negative : Bool) :
    ∃ d, DecimalText negative d (write (.finite negative m)).toList ∧
      d.value = (Decimal.roundSignificant .toEven 15 m.units Magnitude.unitsPerOne).value := by
  obtain ⟨-, -, -, hlast⟩ :=
    Decimal.roundSignificant_spec .toEven hm Magnitude.unitsPerOne_pos 14
  rw [write, if_neg hm.ne', String.toList_ofList]
  exact decimalText_write hlast negative

end Reading

section Main

theorem write_congr {m' : Magnitude} (hm : 0 < m.units) (hm' : 0 < m'.units)
    (h : Decimal.roundSignificant .toEven 15 m'.units Magnitude.unitsPerOne =
      Decimal.roundSignificant .toEven 15 m.units Magnitude.unitsPerOne) (negative : Bool) :
    write (.finite negative m') = write (.finite negative m) := by
  simp only [write, significantDigits, hm.ne', hm'.ne', if_false, h]

/-- An infinity is not spelled as a decimal. -/
theorem DecimalText.ne_write_infinite (h : DecimalText negative d text) :
    (write (.infinite negative)).toList ≠ text := by
  rintro rfl
  have hletter : 'y' ∈ (write (.infinite negative)).toList := by cases negative <;> decide
  exact absurd (h.forall_mem 'y' hletter) (by decide)

/-- The text of a finite number is stable unless it is read as an infinity. -/
theorem write_read_write_finite (hm : 0 < m.units) (negative : Bool) :
    write (read (write (.finite negative m))) = write (.finite negative m) ↔
      (read (write (.finite negative m))).isInfinite = false := by
  obtain ⟨d, htext, hvalue⟩ := decimalText_write_finite hm negative
  have hread := htext.isNearest_read
  rw [String.ofList_toList, hvalue] at hread
  generalize hnumber : read (write (.finite negative m)) = number at *
  cases hread with
  | finite m' hrounds =>
      obtain ⟨hm', hsame⟩ := Magnitude.roundSignificant_read hm hrounds
      exact iff_of_true (write_congr hm hm' hsame negative) rfl
  | infinite u hrounds hbeyond =>
      apply iff_of_false
      · intro hwrite
        exact htext.ne_write_infinite (congrArg String.toList hwrite)
      · simp [Binary64.isInfinite]

/-- Writing a number, reading its text and writing again gives the same text, unless the number
is finite and its fifteen digits are read as an infinity. -/
theorem write_read_write (n : Binary64) :
    write (read (write n)) = write n ↔
      ¬ ∃ negative m, n = .finite negative m ∧ (read (write n)).isInfinite = true := by
  cases n with
  | nan =>
      have hread : read (write .nan) = .nan := by decide +kernel
      simp [hread]
  | infinite negative =>
      have hread : ∀ negative, read (write (.infinite negative)) = .infinite negative := by
        decide +kernel
      simp [hread]
  | finite negative m =>
      have hfinite : (∃ sign n, Binary64.finite negative m = .finite sign n ∧
          (read (write (.finite negative m))).isInfinite = true) ↔
          (read (write (.finite negative m))).isInfinite = true :=
        ⟨fun ⟨_, _, _, h⟩ => h, fun h => ⟨negative, m, rfl, h⟩⟩
      rw [hfinite, Bool.not_eq_true]
      rcases Nat.eq_zero_or_pos m.units with hm | hm
      · have hwrite : write (.finite negative m) = "0" := by rw [write, if_pos hm]
        have hread : read "0" = .finite false .zero := by decide +kernel
        rw [hwrite, hread]
        exact iff_of_true rfl rfl
      · exact write_read_write_finite hm negative

end Main

end Numeral

end WorkflowExpr
