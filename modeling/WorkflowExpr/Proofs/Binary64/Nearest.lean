import Mathlib.Algebra.Order.Field.Rat
import Mathlib.Data.Nat.Cast.Order.Field
import Mathlib.Data.Nat.Log
import Mathlib.Tactic.FieldSimp
import Mathlib.Tactic.Linarith
import Mathlib.Tactic.Positivity
import Mathlib.Tactic.Ring
import WorkflowExpr.Binary64.Basic

/-!
How far rounding moves a quotient, and which unit count it ends on. Quotients are rational
numbers here, so that the natural numbers that make one do not matter. Unit counts near a
quotient lie on a grid whose spacing is a power of two: rounding moves the quotient by at most
half the spacing, and what lies nearer than that on the grid is the rounding.
-/

namespace WorkflowExpr

/-- Rounding depends on the value of a quotient only. -/
theorem roundQuotient_mul_right (tie : Tie) (n d : Nat) {k : Nat} (hk : 0 < k) :
    roundQuotient tie (n * k) (d * k) = roundQuotient tie n d := by
  have hdouble : 2 * (n % d * k) = 2 * (n % d) * k := (Nat.mul_assoc 2 _ k).symm
  simp only [roundQuotient, Nat.mul_div_mul_right _ _ hk, Nat.mul_mod_mul_right, hdouble,
    Nat.mul_lt_mul_right hk]

/-- A quotient as its whole part and the rest. -/
theorem cast_div_eq_add_mod (n : Nat) {d : Nat} (hd : 0 < d) :
    (n : ℚ) / d = (n / d : Nat) + (n % d : Nat) / d := by
  have hdpos : (0 : ℚ) < d := Nat.cast_pos.mpr hd
  have hsplit : (n : ℚ) = d * (n / d : Nat) + (n % d : Nat) := by
    exact_mod_cast (Nat.div_add_mod n d).symm
  rw [eq_comm, eq_div_iff hdpos.ne']
  field_simp
  linarith

/-- Rounding moves a quotient by at most half. -/
theorem abs_roundQuotient_sub_le (tie : Tie) (n : Nat) {d : Nat} (hd : 0 < d) :
    |(roundQuotient tie n d : ℚ) - n / d| ≤ 1 / 2 := by
  have hdpos : (0 : ℚ) < d := Nat.cast_pos.mpr hd
  have hmod : ((n % d : Nat) : ℚ) / d < 1 := by
    rw [div_lt_one hdpos]
    exact_mod_cast Nat.mod_lt n hd
  have hmodnonneg : (0 : ℚ) ≤ ((n % d : Nat) : ℚ) / d := by positivity
  rw [cast_div_eq_add_mod n hd, abs_le]
  rcases roundQuotient_eq_or tie n d with ⟨hround, hhalf⟩ | ⟨hround, hhalf⟩
  · have hle : ((n % d : Nat) : ℚ) / d ≤ 1 / 2 := by
      rw [div_le_div_iff₀ hdpos two_pos, one_mul, mul_comm]
      exact_mod_cast hhalf
    rw [hround]
    constructor <;> linarith
  · have hge : 1 / 2 ≤ ((n % d : Nat) : ℚ) / d := by
      rw [div_le_div_iff₀ two_pos hdpos, one_mul, mul_comm]
      exact_mod_cast hhalf
    rw [hround, Nat.cast_add_one]
    constructor <;> linarith

/-- A natural number nearer than half to a quotient is its rounding. -/
theorem roundQuotient_eq_of_abs_lt (tie : Tie) {n d k : Nat} (hd : 0 < d)
    (h : |(k : ℚ) - n / d| < 1 / 2) : roundQuotient tie n d = k := by
  have hround := abs_roundQuotient_sub_le tie n hd
  rw [abs_le] at hround
  rw [abs_lt] at h
  have hless : (roundQuotient tie n d : ℚ) < k + 1 := by linarith
  have hmore : (k : ℚ) < roundQuotient tie n d + 1 := by linarith
  have hless' : roundQuotient tie n d < k + 1 := by exact_mod_cast hless
  have hmore' : k < roundQuotient tie n d + 1 := by exact_mod_cast hmore
  omega

namespace Magnitude

variable {n d u : Nat}

/-- The relative error of one rounding. -/
def roundoff : ℚ := 1 / 2 ^ 53

theorem unitsPerOne_eq : unitsPerOne = 2 ^ fractionBits := by
  rw [unitsPerOne, Nat.one_shiftLeft]

theorem unitsPerOne_pos : 0 < unitsPerOne := by
  rw [unitsPerOne_eq]
  exact Nat.two_pow_pos fractionBits

theorem cast_unitsPerOne_pos : (0 : ℚ) < unitsPerOne := Nat.cast_pos.mpr unitsPerOne_pos

/-- Rounding depends on the value of a quotient only. -/
theorem roundUnits_congr {n' d' : Nat} (hd : 0 < d) (hd' : 0 < d')
    (h : (n : ℚ) / d = n' / d') : roundUnits n d = roundUnits n' d' := by
  have hscale : ∀ n d k : Nat, 0 < k → roundUnits (n * k) (d * k) = roundUnits n d := by
    intro n d k hk
    simp only [roundUnits, Nat.mul_div_mul_right _ _ hk, Nat.shiftLeft_eq]
    rw [Nat.mul_right_comm, roundQuotient_mul_right _ _ _ hk]
  have hcross : n * d' = n' * d := by
    rw [div_eq_div_iff (Nat.cast_ne_zero.mpr hd.ne') (Nat.cast_ne_zero.mpr hd'.ne')] at h
    exact_mod_cast h
  calc roundUnits n d = roundUnits (n * d') (d * d') := (hscale n d d' hd').symm
    _ = roundUnits (n' * d) (d' * d) := by rw [hcross, Nat.mul_comm d d']
    _ = roundUnits n' d' := hscale n' d' d hd

theorem spareBits_le_spareBits {a b : Nat} (h : a ≤ b) : spareBits a ≤ spareBits b := by
  rw [spareBits, spareBits, Nat.log2_eq_log_two, Nat.log2_eq_log_two]
  exact Nat.sub_le_sub_right (Nat.log_mono_right h) 52

theorem lt_two_pow_spareBits (k : Nat) : k < 2 ^ 53 * 2 ^ spareBits k := by
  rw [← Nat.pow_add]
  refine Nat.lt_of_lt_of_le Nat.lt_log2_self (Nat.pow_le_pow_right two_pos ?_)
  rw [spareBits]
  omega

theorem spareBits_mul_le {n k : Nat} (e : Nat) (h : n < 2 ^ (53 + k)) :
    spareBits (n * 2 ^ e) ≤ k + e := by
  by_cases hn : n = 0
  · rw [hn, Nat.zero_mul]
    exact Nat.zero_le _
  · have hne : n * 2 ^ e ≠ 0 := Nat.mul_ne_zero hn (Nat.two_pow_pos e).ne'
    have hlt : n * 2 ^ e < 2 ^ (53 + k + e) := by
      rw [Nat.pow_add 2 (53 + k)]
      exact Nat.mul_lt_mul_of_pos_right h (Nat.two_pow_pos e)
    have hlog := (Nat.log2_lt hne).mpr hlt
    rw [spareBits]
    omega

theorem le_spareBits_mul {n k : Nat} (e : Nat) (h : 2 ^ (52 + k) ≤ n) :
    k + e ≤ spareBits (n * 2 ^ e) := by
  have hle : 2 ^ (52 + k + e) ≤ n * 2 ^ e := by
    rw [Nat.pow_add 2 (52 + k)]
    exact Nat.mul_le_mul_right _ h
  have hne : n * 2 ^ e ≠ 0 := Nat.ne_of_gt (Nat.lt_of_lt_of_le (Nat.two_pow_pos _) hle)
  have hlog := (Nat.le_log2 hne).mpr hle
  rw [spareBits]
  omega

/-- Spare bits are left when fifty-three bits do not suffice. -/
theorem two_pow_spareBits_le (k : Nat) (h : spareBits k ≠ 0) : 2 ^ 52 * 2 ^ spareBits k ≤ k := by
  have hk : k ≠ 0 := by
    rintro rfl
    exact h rfl
  have hlog : 52 + spareBits k = k.log2 := by
    rw [spareBits] at h ⊢
    omega
  rw [← Nat.pow_add, hlog]
  exact Nat.log2_self_le hk

/-- The spacing at a quotient, against its value. -/
theorem two_pow_spareBits_div_le (n d : Nat) :
    (2 : ℚ) ^ spareBits (n / d) ≤ max 1 ((n : ℚ) / d / 2 ^ 52) := by
  by_cases h : spareBits (n / d) = 0
  · rw [h, pow_zero]
    exact le_max_left _ _
  · have hle : ((2 ^ 52 * 2 ^ spareBits (n / d) : Nat) : ℚ) ≤ (n : ℚ) / d :=
      le_trans (Nat.cast_le.mpr (two_pow_spareBits_le _ h)) Nat.cast_div_le
    push_cast at hle
    exact le_trans ((le_div_iff₀ (by positivity)).mpr (by linarith)) (le_max_right _ _)

theorem lt_two_pow_spareBits_div (n : Nat) (hd : 0 < d) :
    (n : ℚ) / d < 2 ^ 53 * 2 ^ spareBits (n / d) := by
  have hlt : n < 2 ^ 53 * 2 ^ spareBits (n / d) * d :=
    (Nat.div_lt_iff_lt_mul hd).mp (lt_two_pow_spareBits (n / d))
  rw [div_lt_iff₀ (Nat.cast_pos.mpr hd)]
  exact_mod_cast hlt

/-- How far rounding moves a quotient, counted in the spacing there. -/
theorem roundUnits_sub_eq (n d : Nat) :
    (roundUnits n d : ℚ) - n / d =
      (roundQuotient .toEven n (d * 2 ^ spareBits (n / d)) -
        n / (d * 2 ^ spareBits (n / d) : Nat)) * 2 ^ spareBits (n / d) := by
  simp only [roundUnits, Nat.shiftLeft_eq]
  push_cast
  field_simp

/-- Rounding moves a quotient by at most half the spacing there. -/
theorem abs_roundUnits_sub_le_spacing (n : Nat) (hd : 0 < d) :
    |(roundUnits n d : ℚ) - n / d| ≤ 2 ^ spareBits (n / d) / 2 := by
  have hspacing : (0 : ℚ) < 2 ^ spareBits (n / d) := by positivity
  have hround := abs_roundQuotient_sub_le .toEven n
    (Nat.mul_pos hd (Nat.two_pow_pos (spareBits (n / d))))
  rw [roundUnits_sub_eq, abs_mul, abs_of_pos hspacing]
  calc _ ≤ 1 / 2 * (2 : ℚ) ^ spareBits (n / d) := mul_le_mul_of_nonneg_right hround hspacing.le
    _ = _ := by ring

/-- Rounding moves a quotient by at most half a unit or by its share of it. -/
theorem abs_roundUnits_sub_le (n : Nat) (hd : 0 < d) :
    |(roundUnits n d : ℚ) - n / d| ≤ max (1 / 2) (n / d * roundoff) := by
  have hspacing := two_pow_spareBits_div_le n d
  have hround := abs_roundUnits_sub_le_spacing n hd
  have hhalf : max 1 ((n : ℚ) / d / 2 ^ 52) / 2 = max (1 / 2) (n / d * roundoff) := by
    rw [← max_div_div_right two_pos.le, roundoff]
    congr 1
    ring
  rw [← hhalf]
  linarith

/-- What lies on the grid at a quotient and is nearer than half the spacing is the rounding. -/
theorem roundUnits_eq_of_dvd (hd : 0 < d) (hdvd : 2 ^ spareBits (n / d) ∣ u)
    (h : |(u : ℚ) - n / d| < 2 ^ spareBits (n / d) / 2) : roundUnits n d = u := by
  obtain ⟨k, rfl⟩ := hdvd
  have hspacing : (0 : ℚ) < 2 ^ spareBits (n / d) := by positivity
  have hscaled : ((2 ^ spareBits (n / d) * k : Nat) : ℚ) - n / d =
      (k - n / (d * 2 ^ spareBits (n / d) : Nat)) * 2 ^ spareBits (n / d) := by
    push_cast
    field_simp
  rw [hscaled, abs_mul, abs_of_pos hspacing] at h
  have hnear : |(k : ℚ) - n / (d * 2 ^ spareBits (n / d) : Nat)| < 1 / 2 := by
    by_contra hfar
    have hle := mul_le_mul_of_nonneg_right (not_lt.mp hfar) hspacing.le
    linarith
  rw [roundUnits, Nat.shiftLeft_eq, Nat.shiftLeft_eq,
    roundQuotient_eq_of_abs_lt .toEven (Nat.mul_pos hd (Nat.two_pow_pos _)) hnear, Nat.mul_comm]

/-- A quotient below the next count up from one that exists lies on no coarser a grid. -/
theorem spareBits_div_le (hd : 0 < d) (hdvd : 2 ^ spareBits u ∣ u)
    (h : (n : ℚ) / d < u + 2 ^ spareBits u) : spareBits (n / d) ≤ spareBits u := by
  have hnext : u + 2 ^ spareBits u ≤ 2 ^ 53 * 2 ^ spareBits u := by
    obtain ⟨k, hk⟩ := hdvd
    have hlt : k * 2 ^ spareBits u < 2 ^ 53 * 2 ^ spareBits u := by
      rw [Nat.mul_comm k, ← hk]
      exact lt_two_pow_spareBits u
    have hk' : k + 1 ≤ 2 ^ 53 := Nat.lt_of_mul_lt_mul_right hlt
    calc u + 2 ^ spareBits u = (k + 1) * 2 ^ spareBits u := by
          rw [Nat.add_mul, Nat.one_mul, Nat.mul_comm k, ← hk]
      _ ≤ _ := Nat.mul_le_mul_right _ hk'
  have hdiv : n / d < 2 ^ 53 * 2 ^ spareBits u := by
    rw [Nat.div_lt_iff_lt_mul hd]
    rw [div_lt_iff₀ (Nat.cast_pos.mpr hd)] at h
    have hlt : n < (u + 2 ^ spareBits u) * d := by exact_mod_cast h
    exact Nat.lt_of_lt_of_le hlt (Nat.mul_le_mul_right d hnext)
  by_contra hmore
  have hbelow := two_pow_spareBits_le (n / d) (by omega)
  have hdouble : 2 ^ (spareBits u + 1) ≤ 2 ^ spareBits (n / d) :=
    Nat.pow_le_pow_right two_pos (by omega)
  rw [Nat.pow_succ] at hdouble
  omega

/-- A quotient that differs from a count that exists by less than half of the roundoff is
rounded to it. -/
theorem roundUnits_eq_of_near (hd : 0 < d) (hdvd : 2 ^ spareBits u ∣ u)
    (h : |(u : ℚ) - n / d| < u * (roundoff / 2)) : roundUnits n d = u := by
  have hu : (u : ℚ) < 2 ^ 53 * 2 ^ spareBits u := by exact_mod_cast lt_two_pow_spareBits u
  have hbelow := lt_two_pow_spareBits_div n hd
  have habs := abs_lt.mp h
  rw [roundoff] at h habs
  have hspare : spareBits (n / d) ≤ spareBits u := by
    refine spareBits_div_le hd hdvd ?_
    have : (0 : ℚ) < 2 ^ spareBits u := by positivity
    linarith
  have hgrid : 2 ^ spareBits (n / d) ∣ u := Nat.dvd_trans (Nat.pow_dvd_pow 2 hspare) hdvd
  refine roundUnits_eq_of_dvd hd hgrid (lt_of_lt_of_le h ?_)
  -- The count may lie just above the binade of the quotient, but only by being its upper end.
  obtain ⟨k, rfl⟩ := hgrid
  have hspacing : (0 : ℚ) < 2 ^ spareBits (n / d) := by positivity
  push_cast at hbelow habs ⊢
  have hk : (k : ℚ) < 2 ^ 53 + 1 := by
    by_contra hmore
    have hmul := mul_le_mul_of_nonneg_left (not_lt.mp hmore) hspacing.le
    linarith
  have hk' : (k : ℚ) ≤ 2 ^ 53 := by
    have : k < 2 ^ 53 + 1 := by exact_mod_cast hk
    exact_mod_cast Nat.le_of_lt_succ this
  have hmul := mul_le_mul_of_nonneg_left hk' hspacing.le
  linarith

/-- Rounding does not pass a power of two. -/
theorem two_pow_le_roundUnits {k : Nat} (h : 2 ^ k ≤ n / d) : 2 ^ k ≤ roundUnits n d := by
  have hn : n / d ≠ 0 := Nat.ne_of_gt (Nat.lt_of_lt_of_le (Nat.two_pow_pos k) h)
  have hlog : k ≤ (n / d).log2 := (Nat.le_log2 hn).mpr h
  have hspare : spareBits (n / d) ≤ (n / d).log2 := Nat.sub_le (n / d).log2 52
  have hsplit : 2 ^ (n / d).log2 =
      2 ^ ((n / d).log2 - spareBits (n / d)) * 2 ^ spareBits (n / d) := by
    rw [← Nat.pow_add, Nat.sub_add_cancel hspare]
  have hkept : 2 ^ ((n / d).log2 - spareBits (n / d)) ≤ n / (d * 2 ^ spareBits (n / d)) := by
    rw [← Nat.div_div_eq_div_mul, Nat.le_div_iff_mul_le (Nat.two_pow_pos _), ← hsplit]
    exact Nat.log2_self_le hn
  have hround := div_le_roundQuotient .toEven n (d * 2 ^ spareBits (n / d))
  simp only [roundUnits, Nat.shiftLeft_eq]
  calc 2 ^ k ≤ 2 ^ (n / d).log2 := Nat.pow_le_pow_right (by decide) hlog
    _ = 2 ^ ((n / d).log2 - spareBits (n / d)) * 2 ^ spareBits (n / d) := hsplit
    _ ≤ roundQuotient .toEven n (d * 2 ^ spareBits (n / d)) * 2 ^ spareBits (n / d) :=
        Nat.mul_le_mul_right _ (Nat.le_trans hkept hround)

/-- The grid is no finer where rounding ends than where it began. -/
theorem spareBits_div_le_spareBits_roundUnits (n d : Nat) :
    spareBits (n / d) ≤ spareBits (roundUnits n d) := by
  by_cases h : n / d = 0
  · rw [h]
    exact Nat.zero_le _
  · have hpower := two_pow_le_roundUnits (Nat.log2_self_le h)
    calc spareBits (n / d) = spareBits (2 ^ (n / d).log2) := by
          rw [spareBits, spareBits, Nat.log2_two_pow]
      _ ≤ _ := spareBits_le_spareBits hpower

theorem eq_of_units {m n : Magnitude} (h : m.units = n.units) : m = n := by
  cases m
  cases n
  cases h
  rfl

theorem two_pow_spareBits_dvd (m : Magnitude) : 2 ^ spareBits m.units ∣ m.units := by
  rw [← Nat.one_shiftLeft]
  exact m.representable.1

end Magnitude

end WorkflowExpr
