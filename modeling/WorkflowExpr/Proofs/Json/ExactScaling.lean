import WorkflowExpr.Proofs.Json.Scaling
import WorkflowExpr.Proofs.WholeNumbers

/-!
Where scaling by a power of ten is exact. If the significand and the power are numbers
themselves, one division or product is left and rounds the decimal once, as reading back does.
A whole number with a zero behind the point has a significand ten times too large, which may
be rounded, but not so far that dividing by ten would not bring the number back.
-/

namespace WorkflowExpr.Json.Number

open Magnitude

variable {m : Magnitude} {d : Decimal}

/-- The greatest power of ten up to which all powers are numbers. -/
def exactPower : Nat := 22

theorem representable_pow {k : Nat} (hk : k ≤ exactPower) :
    Representable (10 ^ k * unitsPerOne) := by
  have hpowers : ∀ k : Fin (exactPower + 1), Representable (10 ^ k.val * unitsPerOne) := by
    decide +kernel
  exact hpowers ⟨k, Nat.lt_succ_of_le hk⟩

theorem powerOfTen_exact {k : Nat} (hk : k ≤ exactPower) :
    powerOfTen k = .finite false ⟨_, representable_pow hk⟩ :=
  Binary64.ofUnits_units false ⟨_, representable_pow hk⟩

theorem ofNat_exact {n : Nat} (h : n ≤ Binary64.maxWhole) :
    Binary64.ofNat n = .finite false ⟨_, Binary64.representable_whole h⟩ :=
  Binary64.ofUnits_units false ⟨_, Binary64.representable_whole h⟩

/-- A short decimal is scaled to the number that it reads back as. -/
theorem scale?_of_short (hdigits : d.digits ≤ Binary64.maxWhole)
    (hexponent : d.exponent.natAbs ≤ exactPower) (h : m.readsBack d = true) :
    scale? d.digits d.exponent = some (.finite false m) := by
  have hone := cast_unitsPerOne_pos
  have hk : d.exponent.natAbs ≤ greatestPower := hexponent.trans (by decide)
  rw [scale?, ofNat_exact hdigits]
  by_cases hneg : d.exponent < 0
  · have hpower : 0 < 10 ^ d.exponent.natAbs * unitsPerOne :=
      Nat.mul_pos (Nat.pow_pos (by decide)) unitsPerOne_pos
    have hvalue : ((d.digits * unitsPerOne * unitsPerOne : Nat) : ℚ) /
        (10 ^ d.exponent.natAbs * unitsPerOne : Nat) = d.value * unitsPerOne := by
      rw [Decimal.value_of_nonpos hneg.le]
      push_cast
      field_simp
    rw [if_pos hneg, divPower, if_pos hk, powerOfTen_exact hexponent,
      Binary64.div_finite hpower,
      Binary64.ofUnits_eq_finite false ((readsBack_iff hpower hvalue).mp h)]
  · have hvalue : ((d.digits * unitsPerOne * (10 ^ d.exponent.natAbs * unitsPerOne) : Nat) : ℚ) /
        unitsPerOne = d.value * unitsPerOne := by
      rw [Decimal.value_of_nonneg (Int.not_lt.mp hneg)]
      push_cast
      field_simp
    rw [if_neg hneg, if_neg (Nat.not_lt.mpr hk), powerOfTen_exact hexponent,
      Binary64.mul_finite,
      Binary64.ofUnits_eq_finite false ((readsBack_iff unitsPerOne_pos hvalue).mp h)]
    rfl

theorem cast_unitsPerOne : (unitsPerOne : ℚ) = 2 ^ fractionBits := by
  rw [unitsPerOne_eq, Nat.cast_pow, Nat.cast_ofNat]

/-- A significand of fifty-seven bits is off by at most eight when it is rounded. -/
theorem abs_ofNat_sub_le {n : Nat} (h : n < 2 ^ 57) :
    |(roundUnits (n * unitsPerOne) 1 : ℚ) - n * unitsPerOne| ≤ 8 * unitsPerOne := by
  have hspare : spareBits (n * unitsPerOne / 1) ≤ 4 + fractionBits := by
    rw [Nat.div_one, unitsPerOne_eq]
    exact spareBits_mul_le fractionBits h
  have hround := abs_roundUnits_sub_le_spacing (n * unitsPerOne) Nat.one_pos
  have hspacing : (2 : ℚ) ^ spareBits (n * unitsPerOne / 1) ≤ 2 ^ (4 + fractionBits) :=
    pow_le_pow_right₀ one_le_two hspare
  rw [Nat.cast_one, div_one, Nat.cast_mul] at hround
  rw [pow_add, ← cast_unitsPerOne] at hspacing
  linarith

/-- Numbers beyond those that all exist are two apart. -/
theorem two_mul_unitsPerOne_le {k : Nat} (h : 2 ^ 53 * unitsPerOne ≤ k) :
    2 * (unitsPerOne : ℚ) ≤ 2 ^ spareBits k := by
  have hspare : 1 + fractionBits ≤ spareBits k := by
    refine le_trans (le_spareBits_mul fractionBits (Nat.le_refl _)) (spareBits_le_spareBits ?_)
    rwa [← unitsPerOne_eq]
  refine le_trans (le_of_eq ?_) (pow_le_pow_right₀ one_le_two hspare)
  rw [cast_unitsPerOne, pow_add, pow_one]

/-- A tenth of what is off by at most eight is off by less than one. -/
theorem roundUnits_tenth {w x : Nat} (hlow : 2 ^ 53 < w)
    (hw : 2 ^ spareBits (w * unitsPerOne) ∣ w * unitsPerOne)
    (hx : |(x : ℚ) - w * 10 * unitsPerOne| ≤ 8 * unitsPerOne) :
    roundUnits (x * unitsPerOne) (10 ^ 1 * unitsPerOne) = w * unitsPerOne := by
  have hone := cast_unitsPerOne_pos
  have hten : 0 < 10 ^ 1 * unitsPerOne := Nat.mul_pos (by decide) unitsPerOne_pos
  have hlow' : (2 : ℚ) ^ 53 + 1 ≤ w := by exact_mod_cast hlow
  have hleast := mul_le_mul_of_nonneg_right hlow' hone.le
  have hquotient : ((x * unitsPerOne : Nat) : ℚ) / (10 ^ 1 * unitsPerOne : Nat) = x / 10 := by
    push_cast
    field_simp
  rw [abs_le] at hx
  have hfloor : 2 ^ 53 * unitsPerOne ≤ x * unitsPerOne / (10 ^ 1 * unitsPerOne) := by
    have hle : (2 : ℚ) ^ 53 * unitsPerOne * 10 ≤ x := by linarith
    have hle' : 2 ^ 53 * unitsPerOne * 10 ≤ x := by exact_mod_cast hle
    rw [Nat.le_div_iff_mul_le hten]
    calc 2 ^ 53 * unitsPerOne * (10 ^ 1 * unitsPerOne)
        = 2 ^ 53 * unitsPerOne * 10 * unitsPerOne := by ring
      _ ≤ _ := Nat.mul_le_mul_right _ hle'
  have hspare : spareBits (x * unitsPerOne / (10 ^ 1 * unitsPerOne)) ≤
      spareBits (w * unitsPerOne) := by
    refine spareBits_div_le hten hw ?_
    have hspacing := two_mul_unitsPerOne_le (Nat.mul_le_mul_right unitsPerOne hlow.le)
    rw [hquotient]
    push_cast
    linarith
  have hspacing := two_mul_unitsPerOne_le hfloor
  refine roundUnits_eq_of_dvd hten (Nat.dvd_trans (Nat.pow_dvd_pow 2 hspare) hw) ?_
  rw [hquotient, abs_lt]
  push_cast
  constructor <;> linarith

/-- A whole number beyond those that all exist is scaled back from ten times itself. -/
theorem scale?_of_filled {w : Nat} (hlow : 2 ^ 53 < w) (hhigh : w < 10 ^ 16)
    (hm : m.units = w * unitsPerOne) : scale? (w * 10) (-1) = some (.finite false m) := by
  have hten : 0 < 10 ^ 1 * unitsPerOne := Nat.mul_pos (by decide) unitsPerOne_pos
  obtain ⟨x, hx, hunits, -⟩ := Binary64.ofNat_spec (n := w * 10) (k := 17) (by omega) (by decide)
    (by omega)
  have hround := abs_ofNat_sub_le (n := w * 10) (by omega)
  have hw := m.two_pow_spareBits_dvd
  rw [← hunits, Nat.cast_mul, Nat.cast_ofNat] at hround
  rw [hm] at hw
  have htenth := (roundUnits_tenth hlow hw hround).trans hm.symm
  rw [scale?, if_pos (by decide), hx, divPower, if_pos (by decide)]
  change some (_ / powerOfTen 1) = _
  rw [powerOfTen_exact (by decide), Binary64.div_finite hten,
    Binary64.ofUnits_eq_finite false htenth]

end WorkflowExpr.Json.Number
