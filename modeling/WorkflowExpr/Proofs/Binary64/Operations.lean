import WorkflowExpr.Binary64.Arith
import WorkflowExpr.Proofs.Binary64.RoundsTo
import WorkflowExpr.Proofs.WholeNumbers

/-!
Products, quotients and sums as single roundings of unit counts. Where one operand is a small
whole number, a rounding without end of the range stands for the operand, so that an infinity
needs no case of its own.
-/

namespace WorkflowExpr

namespace Magnitude

variable {n d u : Nat}

theorem Fits.mul_two_pow (h : Fits u) (e : Nat) : Fits (u * 2 ^ e) := by
  obtain ⟨k, hk, hu⟩ := h.exists_eq_mul
  rw [hu, Nat.mul_assoc, ← Nat.pow_add]
  exact fits_mul_two_pow hk.le _

theorem limit_eq : limit = 2 ^ limitExponent := by rw [limit, Nat.one_shiftLeft]

theorem limit_le_roundUnits (h : limit ≤ n / d) : limit ≤ roundUnits n d := by
  rw [limit_eq] at h ⊢
  exact two_pow_le_roundUnits h

/-- What is added below a count after scaling does not move the place where it is rounded. -/
theorem roundUnits_mul_two_pow_add {r e : Nat} (h : 2 ^ 52 ≤ n) (hr : r < 2 ^ e) :
    roundUnits (n * 2 ^ e + r) 1 =
      roundQuotient .toEven (n * 2 ^ e + r) (2 ^ spareBits n * 2 ^ e) *
        (2 ^ spareBits n * 2 ^ e) := by
  have hbits : 2 ^ (52 + spareBits n) ≤ n := by
    by_cases hspare : spareBits n = 0
    · rwa [hspare]
    · rw [Nat.pow_add]
      exact two_pow_spareBits_le n hspare
  have hbits' : n + 1 ≤ 2 ^ (53 + spareBits n) := by
    rw [Nat.pow_add]
    exact lt_two_pow_spareBits n
  have hless : n * 2 ^ e + r < 2 ^ (53 + (spareBits n + e)) := by
    have hscale := Nat.mul_le_mul_right (2 ^ e) hbits'
    rw [← Nat.pow_add, Nat.add_mul, Nat.one_mul, Nat.add_assoc] at hscale
    omega
  have hspare : spareBits (n * 2 ^ e + r) = spareBits n + e := by
    apply Nat.le_antisymm
    · simpa using spareBits_mul_le 0 hless
    · exact Nat.le_trans (le_spareBits_mul e hbits) (spareBits_le_spareBits (Nat.le_add_right _ r))
  rw [roundUnits_eq_mul, Nat.div_one, hspare, Nat.one_mul, Nat.pow_add]

/-- Counts of fifty-three bits or more are rounded at the same place after scaling. -/
theorem roundUnits_mul_two_pow (h : 2 ^ 52 ≤ n) (e : Nat) :
    roundUnits (n * 2 ^ e) 1 = roundUnits n 1 * 2 ^ e := by
  have hround := roundUnits_mul_two_pow_add h (Nat.two_pow_pos e)
  rw [Nat.add_zero, roundQuotient_mul_right _ _ _ (Nat.two_pow_pos e)] at hround
  rw [hround, roundUnits_eq_mul, Nat.div_one, Nat.one_mul, Nat.mul_assoc]

end Magnitude

namespace Binary64

open Magnitude

variable {negative : Bool} {n d n' d' u value : Nat}

theorem div_finite {x p : Magnitude} (hp : 0 < p.units) :
    (.finite false x / .finite false p : Binary64) =
      .ofUnits false (x.units * unitsPerOne) p.units := by
  change Binary64.div _ _ = _
  rw [Binary64.div, if_neg hp.ne', bne_self_eq_false]

theorem mul_finite (x p : Magnitude) :
    (.finite false x * .finite false p : Binary64) =
      .ofUnits false (x.units * p.units) unitsPerOne := by
  change Binary64.mul _ _ = _
  rw [Binary64.mul, bne_self_eq_false]

theorem ofUnits_congr (h : roundUnits n d = roundUnits n' d') :
    ofUnits negative n d = ofUnits negative n' d' := by
  simp only [ofUnits, h]

theorem ofUnits_of_limit_le (h : limit ≤ n / d) : ofUnits negative n d = .infinite negative :=
  dif_neg (Nat.not_lt.mpr (limit_le_roundUnits h))

/-- A count that fits stands for a number, or for infinity beyond the range. -/
theorem ofUnits_of_fits (h : Fits u) :
    (∃ m : Magnitude, ofUnits negative u 1 = .finite negative m ∧ m.units = u) ∨
      limit ≤ u ∧ ofUnits negative u 1 = .infinite negative := by
  rcases Nat.lt_or_ge u limit with hlt | hge
  · left
    rw [← roundUnits_of_fits h] at hlt
    obtain ⟨m, hm, hunits⟩ := ofUnits_of_lt negative hlt
    exact ⟨m, hm, hunits.trans (roundUnits_of_fits h)⟩
  · exact .inr ⟨hge, ofUnits_of_limit_le (by rwa [Nat.div_one])⟩

/-- Small whole numbers exist. -/
theorem ofNat_of_le (h : n ≤ maxWhole) :
    ∃ m : Magnitude, ofNat n = .finite false m ∧ m.units = n * unitsPerOne := by
  refine ⟨⟨n * unitsPerOne, representable_whole h⟩, ?_, rfl⟩
  rw [ofNat, ofRatio]
  exact ofUnits_units false ⟨n * unitsPerOne, representable_whole h⟩

/-- Scaling by a small power of two is exact. -/
theorem ofUnits_mul_two_pow (hu : Fits u) {bits : Nat} (hbits : bits ≤ 53) :
    ofUnits false u 1 * ofNat (2 ^ bits) = ofUnits false (u * 2 ^ bits) 1 := by
  have hpower : 2 ^ bits ≤ maxWhole := by
    rw [maxWhole_eq]
    exact Nat.pow_le_pow_right two_pos hbits
  obtain ⟨p, hp, hunits⟩ := ofNat_of_le hpower
  have hone := unitsPerOne_pos
  rcases @ofUnits_of_fits false _ hu with ⟨m, hm, hmunits⟩ | ⟨hlimit, hinfinite⟩
  · rw [hm, hp, mul_finite, hmunits, hunits]
    refine ofUnits_congr (roundUnits_congr hone Nat.one_pos ?_)
    have hne : (unitsPerOne : ℚ) ≠ 0 := cast_unitsPerOne_pos.ne'
    push_cast
    field_simp
  · have hpos : p.units ≠ 0 := by
      rw [hunits]
      exact Nat.mul_ne_zero (Nat.two_pow_pos bits).ne' hone.ne'
    have hbeyond : limit ≤ u * 2 ^ bits / 1 := by
      rw [Nat.div_one]
      exact Nat.le_trans hlimit (Nat.le_mul_of_pos_right u (Nat.two_pow_pos bits))
    rw [hinfinite, hp, ofUnits_of_limit_le hbeyond]
    change Binary64.mul _ _ = _
    rw [Binary64.mul, if_neg hpos, bne_self_eq_false]

/-- Adding a small whole number rounds once. -/
theorem ofUnits_add_ofNat (hu : Fits u) (hvalue : value ≤ maxWhole) :
    ofUnits false u 1 + ofNat value = ofUnits false (u + value * unitsPerOne) 1 := by
  obtain ⟨p, hp, hunits⟩ := ofNat_of_le hvalue
  rcases @ofUnits_of_fits false _ hu with ⟨m, hm, hmunits⟩ | ⟨hlimit, hinfinite⟩
  · rw [hm, hp]
    change Binary64.add _ _ = _
    rw [Binary64.add, signedUnits, signedUnits, if_neg Bool.false_ne_true,
      if_neg Bool.false_ne_true, hmunits, hunits, ← Int.natCast_add]
    split
    · rename_i hzero
      rw [Int.natCast_eq_zero.mp hzero]
      exact (ofUnits_units false .zero).symm
    · rw [Int.natAbs_natCast, decide_eq_false (Int.not_lt.mpr (Int.natCast_nonneg _))]
  · have hbeyond : limit ≤ (u + value * unitsPerOne) / 1 := by
      rw [Nat.div_one]
      exact Nat.le_add_right_of_le hlimit
    rw [hinfinite, hp, ofUnits_of_limit_le hbeyond]
    rfl

end Binary64

end WorkflowExpr
