import WorkflowExpr.Proofs.Binary64.Operations

/-!
Numbers that differ only behind their first fifty-three bits. What is cut off there is missed
exactly where it would break a tie: there the number is rounded up with it, and without it down
to the even neighbour.
-/

namespace WorkflowExpr

section Quotients

variable {n d m r : Nat}

theorem div_mul_add (hr : r < m) : (n * m + r) / (d * m) = n / d := by
  have hwhole : (n * m + r) / m = n := by
    rw [Nat.mul_comm, Nat.mul_add_div (Nat.zero_lt_of_lt hr), Nat.div_eq_of_lt hr, Nat.add_zero]
  rw [Nat.mul_comm d, ← Nat.div_div_eq_div_mul, hwhole]

theorem two_mul_mod_mul_add (hr : r < m) :
    2 * ((n * m + r) % (d * m)) = 2 * (n % d) * m + 2 * r := by
  have hwhole := div_mul_add (n := n) (d := 1) hr
  rw [Nat.one_mul, Nat.div_one] at hwhole
  have hrest : (n * m + r) % m = r := by
    rw [Nat.mul_add_mod_self_right, Nat.mod_eq_of_lt hr]
  rw [Nat.mul_comm d, Nat.mod_mul, hwhole, hrest]
  ring

/-- Less than a step more does not change the rounding beside a tie, nor a tie that goes up. -/
theorem roundQuotient_mul_add (hd : 2 ∣ d) (hr : r < m)
    (hclear : 2 * (n % d) ≠ d ∨ n / d % 2 = 1) :
    roundQuotient .toEven (n * m + r) (d * m) = roundQuotient .toEven n d := by
  rw [roundQuotient, roundQuotient, div_mul_add hr, two_mul_mod_mul_add hr]
  rcases Nat.lt_trichotomy (2 * (n % d)) d with hless | htie | hmore
  · -- An even divisor leaves room for two more.
    have hroom := Nat.mul_le_mul_right m (by omega : 2 * (n % d) + 2 ≤ d)
    rw [Nat.add_mul] at hroom
    rw [if_pos hless, if_pos (by omega)]
  · have hodd : Tie.toEven.goesUp (n / d) = true :=
      beq_iff_eq.mpr (hclear.resolve_left (not_not_intro htie))
    rw [htie, hodd, if_pos rfl, if_neg (by omega), ite_self, if_neg (by omega), if_neg (by omega)]
  · have hstep := Nat.mul_lt_mul_of_pos_right hmore (Nat.zero_lt_of_lt hr)
    rw [if_neg (by omega), if_pos (by omega), if_neg (by omega), if_pos hmore]

/-- Anything more breaks a tie that goes down. -/
theorem roundQuotient_mul_add_of_tie (hr : r < m) (hpos : 0 < r) (htie : 2 * (n % d) = d)
    (heven : n / d % 2 = 0) :
    roundQuotient .toEven (n * m + r) (d * m) = roundQuotient .toEven n d + 1 := by
  have hdown : ¬ Tie.toEven.goesUp (n / d) = true := by
    rw [Tie.goesUp, beq_iff_eq]
    omega
  rw [roundQuotient, roundQuotient, div_mul_add hr, two_mul_mod_mul_add hr, htie,
    if_neg (by omega), if_pos (by omega), if_neg (by omega), if_neg (by omega), if_neg hdown]

end Quotients

namespace Magnitude

variable {n e r : Nat}

/-- A count that is rounded to one side whatever follows below it: it is not halfway, or its tie
goes up. -/
def Clear (n : Nat) : Prop :=
  2 * (n % 2 ^ spareBits n) ≠ 2 ^ spareBits n ∨ n / 2 ^ spareBits n % 2 = 1

instance : DecidablePred Clear := fun _ => instDecidableOr

theorem Clear.roundUnits_add (hclear : Clear n) (h : 2 ^ 53 ≤ n) (hr : r < 2 ^ e) :
    roundUnits (n * 2 ^ e + r) 1 = roundUnits (n * 2 ^ e) 1 := by
  have hmany : 2 ^ 52 ≤ n := Nat.le_trans (by decide) h
  have heven : 2 ∣ 2 ^ spareBits n := by
    have hle := le_spareBits_mul (k := 1) 0 h
    rw [Nat.pow_zero, Nat.mul_one] at hle
    exact dvd_pow_self 2 (by omega)
  rw [roundUnits_mul_two_pow_add hmany hr, roundUnits_mul_two_pow hmany,
    roundQuotient_mul_add heven hr hclear, roundUnits_eq_mul, Nat.div_one, Nat.one_mul,
    Nat.mul_assoc]

theorem roundUnits_lt_of_not_clear (hclear : ¬ Clear n) (h : 2 ^ 53 ≤ n) (hr : r < 2 ^ e)
    (hpos : 0 < r) : roundUnits (n * 2 ^ e) 1 < roundUnits (n * 2 ^ e + r) 1 := by
  have hmany : 2 ^ 52 ≤ n := Nat.le_trans (by decide) h
  rw [Clear, not_or, not_not, Nat.mod_two_not_eq_one] at hclear
  rw [roundUnits_mul_two_pow_add hmany hr, roundUnits_mul_two_pow hmany,
    roundQuotient_mul_add_of_tie hr hpos hclear.1 hclear.2, roundUnits_eq_mul, Nat.div_one,
    Nat.one_mul, Nat.mul_assoc]
  exact Nat.mul_lt_mul_of_pos_right (Nat.lt_succ_self _)
    (Nat.mul_pos (Nat.two_pow_pos _) (Nat.two_pow_pos _))

end Magnitude

namespace Binary64

open Magnitude

variable {negative : Bool} {n d n' d' e r : Nat} {a : Binary64}

theorem isInfinite_ofUnits :
    (ofUnits negative n d).isInfinite = true ↔ limit ≤ roundUnits n d := by
  rw [ofUnits]
  split
  · rename_i hless
    exact ⟨fun h => absurd h Bool.false_ne_true, fun h => absurd hless (Nat.not_lt.mpr h)⟩
  · rename_i hmore
    exact ⟨fun _ => Nat.not_lt.mp hmore, fun _ => rfl⟩

/-- Two roundings give the same number if they give the same count or both leave the range. -/
theorem ofUnits_eq_iff :
    ofUnits negative n d = ofUnits negative n' d' ↔
      roundUnits n d = roundUnits n' d' ∨ limit ≤ roundUnits n d ∧ limit ≤ roundUnits n' d' := by
  constructor
  · intro h
    rcases Nat.lt_or_ge (roundUnits n d) limit with hless | hmore
    · obtain ⟨m, hm, hunits⟩ := ofUnits_of_lt negative hless
      have hless' : roundUnits n' d' < limit := by
        by_contra hbeyond
        rw [hm, ofUnits, dif_neg hbeyond] at h
        cases h
      obtain ⟨m', hm', hunits'⟩ := ofUnits_of_lt negative hless'
      rw [hm, hm'] at h
      cases h
      exact .inl (hunits.symm.trans hunits')
    · refine .inr ⟨hmore, ?_⟩
      rwa [← isInfinite_ofUnits, ← h, isInfinite_ofUnits]
  · rintro (h | ⟨h, h'⟩)
    · exact ofUnits_congr h
    · rw [ofUnits, ofUnits, dif_neg (Nat.not_lt.mpr h), dif_neg (Nat.not_lt.mpr h')]

/-- The nearest number without what is cut off is the nearest one with it, except where a tie goes
down. -/
theorem isNearest_add_iff (h : 2 ^ 53 ≤ n) (hr : r < 2 ^ e)
    (ha : IsNearest negative ((n * 2 ^ e : Nat) : ℚ) a) :
    IsNearest negative ((n * 2 ^ e + r : Nat) : ℚ) a ↔
      r = 0 ∨ Clear n ∨ a.isInfinite = true := by
  rw [isNearest_natCast_iff] at ha ⊢
  have hscale : n * 2 ^ e * unitsPerOne = n * 2 ^ (e + fractionBits) := by
    rw [unitsPerOne_eq, Nat.pow_add, Nat.mul_assoc]
  have hbelow : r * unitsPerOne < 2 ^ (e + fractionBits) := by
    rw [unitsPerOne_eq, Nat.pow_add]
    exact Nat.mul_lt_mul_of_pos_right hr (Nat.two_pow_pos _)
  rw [ha, ofRatio, ofRatio, ofUnits_eq_iff, isInfinite_ofUnits, Nat.add_mul, hscale]
  rcases Nat.eq_zero_or_pos r with rfl | hpos
  · rw [Nat.zero_mul, Nat.add_zero]
    exact iff_of_true (.inl rfl) (.inl rfl)
  · by_cases hclear : Clear n
    · exact iff_of_true (.inl (hclear.roundUnits_add h hbelow).symm) (.inr (.inl hclear))
    · have hless := roundUnits_lt_of_not_clear hclear h hbelow
        (Nat.mul_pos hpos unitsPerOne_pos)
      rw [or_iff_right hpos.ne', or_iff_right hclear, or_iff_right hless.ne]
      exact and_iff_left_of_imp fun hbeyond => hbeyond.trans hless.le

end Binary64

end WorkflowExpr
