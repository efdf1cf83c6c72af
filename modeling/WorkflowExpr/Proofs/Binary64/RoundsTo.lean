import WorkflowExpr.Proofs.Binary64.Errors
import WorkflowExpr.Proofs.Decimal.Shortest
import WorkflowExpr.Proofs.WholeNumbers

/-!
What it means to be the nearest number. Unit counts of fifty-three significant bits lie on a
grid without end; an exact value is rounded to the one nearest to it, of two equally near ones
to the one whose last significant bit is zero, and to infinity where that count is beyond the
finite range. Nothing here says how the count is found. There is only one, and the rounding of
quotients finds it.
-/

namespace WorkflowExpr

/-- A quotient halfway between two natural numbers is rounded to the even one. -/
theorem roundQuotient_even_of_half {n d : Nat} (hd : 0 < d)
    (h : |(roundQuotient .toEven n d : ℚ) - n / d| = 1 / 2) :
    roundQuotient .toEven n d % 2 = 0 := by
  have hdpos : (0 : ℚ) < d := Nat.cast_pos.mpr hd
  have hhalf : 2 * (n % d) = d := by
    have hmod : ((n % d : Nat) : ℚ) / d = 1 / 2 := by
      rw [cast_div_eq_add_mod n hd] at h
      have hmodnonneg : (0 : ℚ) ≤ ((n % d : Nat) : ℚ) / d := by positivity
      rcases roundQuotient_eq_or .toEven n d with ⟨hround, -⟩ | ⟨hround, -⟩
      · rw [hround, sub_add_cancel_left, abs_neg, abs_of_nonneg hmodnonneg] at h
        exact h
      · have hless : ((n % d : Nat) : ℚ) / d < 1 := by
          rw [div_lt_one hdpos]
          exact_mod_cast Nat.mod_lt n hd
        rw [hround, Nat.cast_add_one, add_sub_add_left_eq_sub, abs_of_nonneg (by linarith)] at h
        linarith
    rw [div_eq_div_iff hdpos.ne' two_ne_zero, one_mul, mul_comm] at hmod
    exact_mod_cast hmod
  rw [roundQuotient, if_neg (by omega), if_neg (by omega), Tie.goesUp]
  split
  · rename_i hodd
    rw [beq_iff_eq] at hodd
    omega
  · rename_i heven
    rw [beq_iff_eq] at heven
    omega

namespace Magnitude

variable {n d u v s : Nat} {q : ℚ}

/-- A unit count has no more than fifty-three significant bits. -/
def Fits (u : Nat) : Prop := 2 ^ spareBits u ∣ u

/-- A unit count is what a value is rounded to, were the range without end. -/
structure RoundsTo (q : ℚ) (u : Nat) : Prop where
  fits : Fits u
  nearest : ∀ v, Fits v → |(u : ℚ) - q| ≤ |(v : ℚ) - q|
  even_of_tie : ∀ v, Fits v → v ≠ u → |(v : ℚ) - q| = |(u : ℚ) - q| →
    u / 2 ^ spareBits u % 2 = 0

theorem fits_roundUnits (n d : Nat) : Fits (roundUnits n d) := by
  rw [Fits, ← Nat.one_shiftLeft]
  exact shift_spareBits_dvd_roundUnits n d

theorem fits_mul_two_pow {k : Nat} (hk : k ≤ 2 ^ 53) (s : Nat) : Fits (k * 2 ^ s) := by
  rw [Fits, ← Nat.one_shiftLeft, ← Nat.shiftLeft_eq]
  exact shift_spareBits_dvd (by rwa [Nat.one_shiftLeft])

theorem roundUnits_of_fits (h : Fits u) : roundUnits u 1 = u := by
  refine roundUnits_eq_of_dvd Nat.one_pos (by rwa [Nat.div_one]) ?_
  rw [Nat.cast_one, div_one, sub_self, abs_zero]
  positivity

/-- Large counts that fit lie on a coarse grid. -/
theorem Fits.two_pow_dvd (h : Fits v) (hlarge : s = 0 ∨ 2 ^ (52 + s) ≤ v) : 2 ^ s ∣ v := by
  rcases hlarge with rfl | hle
  · exact one_dvd v
  · have hspare := le_spareBits_mul 0 hle
    rw [Nat.pow_zero, Nat.mul_one, Nat.add_zero] at hspare
    exact Nat.dvd_trans (Nat.pow_dvd_pow 2 hspare) h

/-- No count that fits lies between the two neighbours of a quotient. -/
theorem Fits.le_or_ge (h : Fits v) (n d : Nat) :
    v ≤ n / (d * 2 ^ spareBits (n / d)) * 2 ^ spareBits (n / d) ∨
      (n / (d * 2 ^ spareBits (n / d)) + 1) * 2 ^ spareBits (n / d) ≤ v := by
  have hspacing := Nat.two_pow_pos (spareBits (n / d))
  rcases Nat.lt_or_ge (n / (d * 2 ^ spareBits (n / d)) * 2 ^ spareBits (n / d)) v with
    hmore | hless
  · right
    have hdvd : 2 ^ spareBits (n / d) ∣ v := by
      refine h.two_pow_dvd (or_iff_not_imp_left.mpr fun hspare => ?_)
      have hlow := (Nat.le_div_iff_mul_le hspacing).mpr (two_pow_spareBits_le (n / d) hspare)
      rw [Nat.div_div_eq_div_mul] at hlow
      rw [Nat.pow_add]
      exact Nat.le_trans (Nat.mul_le_mul_right _ hlow) (Nat.le_of_lt hmore)
    obtain ⟨k, rfl⟩ := hdvd
    rw [Nat.mul_comm (2 ^ _) k] at hmore ⊢
    exact Nat.mul_le_mul_right _ (Nat.lt_of_mul_lt_mul_right hmore)
  · exact .inl hless

/-- Of two neighbours of a value, one that is no further than half their distance is the nearer
one, against everything that does not lie between them. -/
theorem lt_or_tie_of_half {lower gap u v q : ℚ} (hlower : lower ≤ q) (hupper : q ≤ lower + gap)
    (hu : u = lower ∨ u = lower + gap) (hhalf : |u - q| ≤ gap / 2)
    (hv : v ≤ lower ∨ lower + gap ≤ v) :
    v = u ∨ |u - q| < |v - q| ∨ |u - q| = gap / 2 ∧ |v - q| = gap / 2 := by
  rcases hu with rfl | rfl
  · rw [abs_of_nonpos (by linarith)] at hhalf ⊢
    rcases hv with hless | hmore
    · rw [abs_of_nonpos (by linarith)]
      rcases hless.eq_or_lt with heq | hlt
      · exact .inl heq
      · exact .inr (.inl (by linarith))
    · rw [abs_of_nonneg (by linarith)]
      rcases lt_or_ge (-(u - q)) (v - q) with hlt | hge
      · exact .inr (.inl hlt)
      · exact .inr (.inr ⟨by linarith, by linarith⟩)
  · rw [abs_of_nonneg (by linarith)] at hhalf ⊢
    rcases hv with hless | hmore
    · rw [abs_of_nonpos (by linarith)]
      rcases lt_or_ge (lower + gap - q) (-(v - q)) with hlt | hge
      · exact .inr (.inl hlt)
      · exact .inr (.inr ⟨by linarith, by linarith⟩)
    · rw [abs_of_nonneg (by linarith)]
      rcases hmore.eq_or_lt with heq | hlt
      · exact .inl heq.symm
      · exact .inr (.inl (by linarith))

/-- The last bit of a count, from a form with fifty-three bits or the power after them. -/
theorem even_mul_two_pow {k : Nat} (hk : k ≤ 2 ^ 53) (heven : k % 2 = 0)
    (hspare : s ≤ spareBits (k * 2 ^ s)) :
    k * 2 ^ s / 2 ^ spareBits (k * 2 ^ s) % 2 = 0 := by
  rcases Nat.lt_or_eq_of_le hk with hlt | rfl
  · have hsame : spareBits (k * 2 ^ s) = s := by
      have hle := spareBits_mul_le (k := 0) s hlt
      omega
    rw [hsame, Nat.mul_div_cancel _ (Nat.two_pow_pos s), heven]
  · have hsame : spareBits (2 ^ 53 * 2 ^ s) = s + 1 := by
      rw [← Nat.pow_add, spareBits, Nat.log2_two_pow]
      omega
    have hsplit : 2 ^ 53 * 2 ^ s = 2 ^ 52 * 2 ^ (s + 1) := by
      rw [← Nat.pow_add, ← Nat.pow_add]
      congr 1
      omega
    rw [hsame, hsplit, Nat.mul_div_cancel _ (Nat.two_pow_pos _)]
    decide

theorem roundUnits_eq_mul (n d : Nat) :
    roundUnits n d =
      roundQuotient .toEven n (d * 2 ^ spareBits (n / d)) * 2 ^ spareBits (n / d) := by
  rw [roundUnits, Nat.shiftLeft_eq, Nat.shiftLeft_eq]

/-- A rounded quotient has fifty-three bits, or is the power after them. -/
theorem roundQuotient_le_two_pow (n d : Nat) :
    roundQuotient .toEven n (d * 2 ^ spareBits (n / d)) ≤ 2 ^ 53 := by
  have hbelow : n / (d * 2 ^ spareBits (n / d)) < 2 ^ 53 := by
    rw [← Nat.div_div_eq_div_mul, Nat.div_lt_iff_lt_mul (Nat.two_pow_pos _)]
    exact lt_two_pow_spareBits (n / d)
  exact Nat.le_trans (roundQuotient_le _ _ _) hbelow

/-- A tie ends on a count whose last bit is zero. -/
theorem roundUnits_even_of_half (n : Nat) (hd : 0 < d)
    (h : |(roundUnits n d : ℚ) - n / d| = 2 ^ spareBits (n / d) / 2) :
    roundUnits n d / 2 ^ spareBits (roundUnits n d) % 2 = 0 := by
  have hspacing : (0 : ℚ) < 2 ^ spareBits (n / d) := by positivity
  have hspare := spareBits_div_le_spareBits_roundUnits n d
  have hround := roundQuotient_even_of_half
    (n := n) (Nat.mul_pos hd (Nat.two_pow_pos (spareBits (n / d))))
  have hmost := roundQuotient_le_two_pow n d
  rw [roundUnits_sub_eq] at h
  rw [roundUnits_eq_mul] at hspare ⊢
  refine even_mul_two_pow hmost (hround ?_) hspare
  rw [abs_mul, abs_of_pos hspacing] at h
  exact mul_right_cancel₀ hspacing.ne' (h.trans (by ring))

/-- Against any count that fits, the rounding of a quotient is nearer or ties. -/
theorem Fits.lt_or_tie (hv : Fits v) (n : Nat) (hd : 0 < d) :
    v = roundUnits n d ∨ |(roundUnits n d : ℚ) - n / d| < |(v : ℚ) - n / d| ∨
      |(roundUnits n d : ℚ) - n / d| = 2 ^ spareBits (n / d) / 2 ∧
        |(v : ℚ) - n / d| = 2 ^ spareBits (n / d) / 2 := by
  have hspacing : 0 < d * 2 ^ spareBits (n / d) := Nat.mul_pos hd (Nat.two_pow_pos _)
  have hpos : (0 : ℚ) < 2 ^ spareBits (n / d) := by positivity
  have hsplit : (n : ℚ) / d =
      n / (d * 2 ^ spareBits (n / d) : Nat) * 2 ^ spareBits (n / d) := by
    push_cast
    field_simp
  have hlower : ((n / (d * 2 ^ spareBits (n / d)) : Nat) : ℚ) * 2 ^ spareBits (n / d) ≤ n / d := by
    rw [hsplit]
    exact mul_le_mul_of_nonneg_right Nat.cast_div_le hpos.le
  have hupper : (n : ℚ) / d ≤
      ((n / (d * 2 ^ spareBits (n / d)) : Nat) : ℚ) * 2 ^ spareBits (n / d) +
        2 ^ spareBits (n / d) := by
    have hrest : ((n % (d * 2 ^ spareBits (n / d)) : Nat) : ℚ) / (d * 2 ^ spareBits (n / d) : Nat)
        ≤ 1 := by
      rw [div_le_one (Nat.cast_pos.mpr hspacing)]
      exact_mod_cast (Nat.mod_lt n hspacing).le
    rw [hsplit, cast_div_eq_add_mod n hspacing, add_mul]
    have hmul := mul_le_mul_of_nonneg_right hrest hpos.le
    linarith
  have hu : (roundUnits n d : ℚ) =
        ((n / (d * 2 ^ spareBits (n / d)) : Nat) : ℚ) * 2 ^ spareBits (n / d) ∨
      (roundUnits n d : ℚ) =
        ((n / (d * 2 ^ spareBits (n / d)) : Nat) : ℚ) * 2 ^ spareBits (n / d) +
          2 ^ spareBits (n / d) := by
    rw [roundUnits_eq_mul]
    rcases roundQuotient_eq_or .toEven n (d * 2 ^ spareBits (n / d)) with ⟨hr, -⟩ | ⟨hr, -⟩
    · left
      rw [hr]
      push_cast
      rfl
    · right
      rw [hr]
      push_cast
      ring
  have hapart := hv.le_or_ge n d
  have hapart' : (v : ℚ) ≤
        ((n / (d * 2 ^ spareBits (n / d)) : Nat) : ℚ) * 2 ^ spareBits (n / d) ∨
      ((n / (d * 2 ^ spareBits (n / d)) : Nat) : ℚ) * 2 ^ spareBits (n / d) +
        2 ^ spareBits (n / d) ≤ v := by
    rw [Nat.add_mul, Nat.one_mul] at hapart
    exact_mod_cast hapart
  rw [← Nat.cast_inj (R := ℚ)]
  exact lt_or_tie_of_half hlower hupper hu (abs_roundUnits_sub_le_spacing n hd) hapart'

/-- Quotients are rounded to the nearest count. -/
theorem roundsTo_roundUnits (n : Nat) (hd : 0 < d) : RoundsTo (n / d) (roundUnits n d) where
  fits := fits_roundUnits n d
  nearest v hv := by
    rcases hv.lt_or_tie n hd with rfl | hlt | ⟨hu, htie⟩
    · exact le_refl _
    · exact hlt.le
    · rw [hu, htie]
  even_of_tie v hv hne heq := by
    rcases hv.lt_or_tie n hd with hsame | hlt | ⟨hu, -⟩
    · exact absurd hsame hne
    · exact absurd heq hlt.ne'
    · exact roundUnits_even_of_half n hd hu

/-- A count that fits is a number of fifty-three bits times the spacing there. -/
theorem Fits.exists_eq_mul (h : Fits u) : ∃ k < 2 ^ 53, u = k * 2 ^ spareBits u := by
  obtain ⟨k, hk⟩ := h
  rw [Nat.mul_comm] at hk
  refine ⟨k, ?_, hk⟩
  have hlt : k * 2 ^ spareBits u < 2 ^ 53 * 2 ^ spareBits u := by
    rw [← hk]
    exact lt_two_pow_spareBits u
  exact Nat.lt_of_mul_lt_mul_right hlt

/-- The next count after one that fits. -/
theorem Fits.next (h : Fits u) : Fits (u + 2 ^ spareBits u) := by
  obtain ⟨k, hk, hu⟩ := h.exists_eq_mul
  have hnext : u + 2 ^ spareBits u = (k + 1) * 2 ^ spareBits u := by
    rw [Nat.add_mul, Nat.one_mul, ← hu]
  rw [hnext]
  exact fits_mul_two_pow hk _

/-- Last bits alternate. -/
theorem Fits.next_odd (h : Fits u) (heven : u / 2 ^ spareBits u % 2 = 0) :
    (u + 2 ^ spareBits u) / 2 ^ spareBits (u + 2 ^ spareBits u) % 2 = 1 := by
  have hspacing := Nat.two_pow_pos (spareBits u)
  obtain ⟨k, hk, hu⟩ := h.exists_eq_mul
  have hdiv : u / 2 ^ spareBits u = k := Nat.div_eq_of_eq_mul_left hspacing hu
  have hnext : u + 2 ^ spareBits u = (k + 1) * 2 ^ spareBits u := by
    rw [Nat.add_mul, Nat.one_mul, ← hu]
  have hspare : spareBits (u + 2 ^ spareBits u) = spareBits u := by
    have hmore := spareBits_le_spareBits (Nat.le_add_right u (2 ^ spareBits u))
    have hless : spareBits ((k + 1) * 2 ^ spareBits u) ≤ 0 + spareBits u :=
      spareBits_mul_le _ (by omega)
    rw [← hnext] at hless
    omega
  rw [hspare, hnext, Nat.mul_div_cancel _ hspacing]
  omega

namespace RoundsTo

/-- A value rounded to two counts lies halfway between them. -/
theorem halfway (hu : RoundsTo q u) (hv : RoundsTo q v) (hlt : u < v) : (v : ℚ) - q = q - u := by
  have hcast : (u : ℚ) < v := Nat.cast_lt.mpr hlt
  have heq : |(v : ℚ) - q| = |(u : ℚ) - q| :=
    le_antisymm (hv.nearest u hu.fits) (hu.nearest v hv.fits)
  rcases abs_eq_abs.mp heq with h | h <;> linarith

/-- Counts that a value lies halfway between follow one another. -/
theorem next_eq (hu : RoundsTo q u) (hv : RoundsTo q v) (hlt : u < v) :
    u + 2 ^ spareBits u = v := by
  have hmiddle := halfway hu hv hlt
  have hle : u + 2 ^ spareBits u ≤ v := by
    have hspare : spareBits u ≤ spareBits v := spareBits_le_spareBits hlt.le
    obtain ⟨j, rfl⟩ := Nat.dvd_trans (Nat.pow_dvd_pow 2 hspare) hv.fits
    obtain ⟨k, -, hk⟩ := hu.fits.exists_eq_mul
    generalize 2 ^ spareBits u = spacing at hk hlt ⊢
    subst hk
    rw [Nat.mul_comm k] at hlt ⊢
    rw [← Nat.mul_succ]
    exact Nat.mul_le_mul_left _ (Nat.lt_of_mul_lt_mul_left hlt)
  by_contra hne
  have hspacing := Nat.two_pow_pos (spareBits u)
  have hbelow : ((u + 2 ^ spareBits u : Nat) : ℚ) < v :=
    Nat.cast_lt.mpr (Nat.lt_of_le_of_ne hle hne)
  have habove : (u : ℚ) < (u + 2 ^ spareBits u : Nat) := Nat.cast_lt.mpr (by omega)
  have hfar := hu.nearest _ hu.fits.next
  rw [abs_of_nonpos (by linarith : (u : ℚ) - q ≤ 0)] at hfar
  rcases abs_cases (((u + 2 ^ spareBits u : Nat) : ℚ) - q) with ⟨habs, -⟩ | ⟨habs, -⟩ <;> linarith

/-- Of two counts that follow one another one has a last bit other than zero. -/
theorem not_lt (hu : RoundsTo q u) (hv : RoundsTo q v) : ¬ u < v := by
  intro hlt
  have hmiddle := halfway hu hv hlt
  have heq : |(v : ℚ) - q| = |(u : ℚ) - q| := by rw [hmiddle, abs_sub_comm]
  have heven := hu.even_of_tie v hv.fits hlt.ne' heq
  have heven' := hv.even_of_tie u hu.fits hlt.ne heq.symm
  have hodd := hu.fits.next_odd heven
  rw [next_eq hu hv hlt] at hodd
  omega

/-- A value is rounded to one count only. -/
theorem unique (hu : RoundsTo q u) (hv : RoundsTo q v) : u = v :=
  Nat.le_antisymm (Nat.not_lt.mp (not_lt hv hu)) (Nat.not_lt.mp (not_lt hu hv))

end RoundsTo

end Magnitude

namespace Binary64

open Magnitude

variable {negative : Bool} {q : ℚ} {n d : Nat} {a b : Binary64}

/-- The number nearest to a sign and an exact absolute value, with the sign also at zero and
at infinity. -/
inductive IsNearest (negative : Bool) (q : ℚ) : Binary64 → Prop where
  | finite (m : Magnitude) (rounds : RoundsTo (q * unitsPerOne) m.units) :
      IsNearest negative q (.finite negative m)
  | infinite (u : Nat) (rounds : RoundsTo (q * unitsPerOne) u) (beyond : limit ≤ u) :
      IsNearest negative q (.infinite negative)

theorem IsNearest.of_units {u : Nat} (h : RoundsTo (q * unitsPerOne) u)
    (hu : roundUnits n d = u) : IsNearest negative q (ofUnits negative n d) := by
  subst hu
  rw [ofUnits]
  split
  · exact .finite _ h
  · rename_i hlimit
    exact .infinite _ h (Nat.not_lt.mp hlimit)

theorem isNearest_ofRatio (negative : Bool) (n : Nat) (hd : 0 < d) :
    IsNearest negative (n / d) (ofRatio negative n d) := by
  refine IsNearest.of_units ?_ rfl
  have hrounds := roundsTo_roundUnits (n * unitsPerOne) hd
  rwa [Nat.cast_mul, mul_div_right_comm] at hrounds

theorem IsNearest.unique (ha : IsNearest negative q a) (hb : IsNearest negative q b) : a = b := by
  cases ha with
  | finite m hm =>
      cases hb with
      | finite n hn => rw [eq_of_units (hm.unique hn)]
      | infinite u hu hlimit =>
          have hless := m.representable.2
          rw [hm.unique hu] at hless
          omega
  | infinite u hu hlimit =>
      cases hb with
      | finite n hn =>
          have hless := n.representable.2
          rw [hn.unique hu] at hless
          omega
      | infinite _ _ _ => rfl

theorem IsNearest.ne_nan (h : IsNearest negative q a) : a ≠ .nan := by
  rintro rfl
  cases h

theorem isNearest_natCast_iff : IsNearest negative (n : ℚ) a ↔ a = ofRatio negative n 1 := by
  have hratio := isNearest_ofRatio negative n Nat.one_pos
  rw [Nat.cast_one, div_one] at hratio
  exact ⟨fun h => h.unique hratio, fun h => h ▸ hratio⟩

theorem isNearest_ofInt (n : Nat) : IsNearest false (n : ℚ) (ofInt n) := by
  rw [isNearest_natCast_iff, ofInt, Int.natAbs_natCast,
    decide_eq_false (Int.not_lt.mpr (Int.natCast_nonneg n))]

/-- Nearest numbers of one sign are equal only if they are the same. -/
theorem IsNearest.eq_of_numericEq {p : ℚ} (ha : IsNearest false p a) (hb : IsNearest false q b)
    (h : a.numericEq b = true) : a = b := by
  have hapart : ∀ m : Magnitude, (m.units : Int) ≠ limit := fun m heq =>
    m.representable.2.ne (Int.natCast_inj.mp heq)
  obtain ⟨x, hx, hy⟩ := numericEq_iff.mp h
  have hplace := hx.trans hy.symm
  cases ha with
  | finite m =>
      cases hb with
      | finite m' => rw [eq_of_units (Int.natCast_inj.mp (Option.some.inj hplace))]
      | infinite => exact absurd (Option.some.inj hplace) (hapart m)
  | infinite =>
      cases hb with
      | finite m => exact absurd (Option.some.inj hplace).symm (hapart m)
      | infinite => rfl

end Binary64

namespace Decimal

open Magnitude

variable {d : Decimal}

theorem roundsTo_value (d : Decimal) :
    RoundsTo (d.value * unitsPerOne) (roundUnits (d.numerator * unitsPerOne) d.denominator) := by
  rw [← numerator_mul_div_denominator]
  exact roundsTo_roundUnits _ d.denominator_pos

/-- A decimal of small exponent is less than half a unit. -/
theorem value_lt_half (h : d.digits = 0 ∨ d.leadingExponent < leastExponent) :
    d.value * unitsPerOne < 1 / 2 := by
  have hone := cast_unitsPerOne_pos
  rcases Nat.eq_zero_or_pos d.digits with hzero | hpos
  · rw [value, hzero, Nat.cast_zero, zero_mul, zero_mul]
    norm_num
  · have hleading := h.resolve_left hpos.ne'
    have hsmall : 2 * unitsPerOne < 10 ^ 330 := by decide +kernel
    have hsmall' : 2 * (unitsPerOne : ℚ) < (10 ^ 330 : Nat) := by exact_mod_cast hsmall
    have hpower : (10 : ℚ) ^ (d.leadingExponent + 1) * (10 ^ 330 : Nat) ≤ 1 := by
      rw [Nat.cast_pow, ← zpow_natCast, Nat.cast_ofNat, ← zpow_add₀ (by norm_num)]
      refine zpow_le_one_of_nonpos₀ (by norm_num) ?_
      rw [leastExponent] at hleading
      omega
    have hvalue := (leadingExponent_spec hpos).2
    generalize ((10 ^ 330 : Nat) : ℚ) = power at hsmall' hpower
    have hmul := mul_lt_mul_of_pos_right hvalue (by linarith : 0 < power)
    have hvaluenonneg : 0 ≤ d.value := mul_nonneg (Nat.cast_nonneg _) (by positivity)
    have hmul' := mul_le_mul_of_nonneg_left hsmall'.le hvaluenonneg
    linarith

/-- A decimal of large exponent is beyond every number. -/
theorem limit_le_value (hpos : 0 < d.digits) (h : greatestExponent < d.leadingExponent) :
    (limit : ℚ) ≤ d.value * unitsPerOne := by
  have hlarge : limit ≤ 10 ^ 310 * unitsPerOne := by decide +kernel
  have hpower : ((10 ^ 310 : Nat) : ℚ) ≤ 10 ^ d.leadingExponent := by
    rw [Nat.cast_pow, ← zpow_natCast, Nat.cast_ofNat]
    refine zpow_le_zpow_right₀ (by norm_num) ?_
    rw [greatestExponent] at h
    omega
  calc (limit : ℚ) ≤ (10 ^ 310 : Nat) * unitsPerOne := by exact_mod_cast hlarge
    _ ≤ _ := mul_le_mul_of_nonneg_right (hpower.trans (leadingExponent_spec hpos).1)
      cast_unitsPerOne_pos.le

/-- Decimals are rounded to the nearest number, also those that are told by their exponents
alone. -/
theorem isNearest_nearest (negative : Bool) (d : Decimal) :
    Binary64.IsNearest negative d.value (d.nearest negative) := by
  have hrounds := roundsTo_value d
  rw [nearest]
  split
  · rename_i hsmall
    have hless := value_lt_half hsmall
    have hvalue : 0 ≤ d.value * unitsPerOne :=
      mul_nonneg (mul_nonneg (Nat.cast_nonneg _) (by positivity)) cast_unitsPerOne_pos.le
    have hzero : roundUnits (d.numerator * unitsPerOne) d.denominator = 0 := by
      refine roundUnits_eq_of_dvd d.denominator_pos (Nat.dvd_zero _) ?_
      have hspacing : (1 : ℚ) ≤ 2 ^ spareBits (d.numerator * unitsPerOne / d.denominator) :=
        one_le_pow₀ one_le_two
      rw [numerator_mul_div_denominator, Nat.cast_zero, zero_sub, abs_neg, abs_of_nonneg hvalue]
      linarith
    rw [hzero] at hrounds
    exact .finite .zero hrounds
  · rename_i hnotsmall
    split
    · rename_i hlarge
      have hbeyond := limit_le_value (Nat.pos_of_ne_zero fun h => hnotsmall (.inl h)) hlarge
      rw [← numerator_mul_div_denominator, le_div_iff₀ (Nat.cast_pos.mpr d.denominator_pos)]
        at hbeyond
      refine .infinite _ hrounds ?_
      rw [limit, Nat.one_shiftLeft] at hbeyond ⊢
      refine two_pow_le_roundUnits ((Nat.le_div_iff_mul_le d.denominator_pos).mpr ?_)
      exact_mod_cast hbeyond
    · rw [← numerator_div_denominator]
      exact Binary64.isNearest_ofRatio negative _ d.denominator_pos

end Decimal

end WorkflowExpr
