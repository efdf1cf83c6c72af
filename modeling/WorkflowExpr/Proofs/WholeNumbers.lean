import Mathlib.Algebra.Group.Nat.Defs
import WorkflowExpr.Proofs.Binary64.Nearest
import WorkflowExpr.Value.Json

/-!
Whole numbers among the floating-point numbers. Up to the largest that is written as one,
every whole number exists and lies at its own multiple of the units that make one. Larger ones
are rounded, but keep their sign and stay large.
-/

namespace WorkflowExpr

namespace Binary64

theorem maxWhole_eq : maxWhole = 2 ^ 53 := Nat.one_shiftLeft 53

/-- A number is a whole one, and near enough to zero that all its neighbours exist. -/
def IsWhole (n : Binary64) : Prop :=
  ∃ i : Int, i.natAbs ≤ maxWhole ∧ n.position? = some (i * Magnitude.unitsPerOne)

theorem representable_whole {n : Nat} (h : n ≤ maxWhole) :
    Magnitude.Representable (n * Magnitude.unitsPerOne) := by
  -- The exponents stay variables, as the powers themselves are too large to compute with.
  have below : ∀ {bits limit : Nat}, 53 + bits < limit → n <<< bits < 1 <<< limit := by
    intro bits limit hlt
    rw [Nat.shiftLeft_eq, Nat.one_shiftLeft]
    calc n * 2 ^ bits ≤ 2 ^ 53 * 2 ^ bits := Nat.mul_le_mul_right (2 ^ bits) h
      _ = 2 ^ (53 + bits) := (Nat.pow_add 2 53 bits).symm
      _ < 2 ^ limit := Nat.pow_lt_pow_right (by decide) hlt
  rw [Magnitude.unitsPerOne_eq, ← Nat.shiftLeft_eq]
  exact ⟨Magnitude.shift_spareBits_dvd h, below (by decide)⟩

/-- A whole number near zero is made exactly. -/
theorem position?_ofInt {i : Int} (h : i.natAbs ≤ maxWhole) :
    (ofInt i).position? = some (i * Magnitude.unitsPerOne) := by
  have hunits := ofUnits_units (i < 0)
    ⟨i.natAbs * Magnitude.unitsPerOne, representable_whole h⟩
  rw [ofInt, ofRatio, hunits, position?]
  by_cases hneg : i < 0
  · have habs : (i.natAbs : Int) = -i := Int.ofNat_natAbs_of_nonpos (Int.le_of_lt hneg)
    rw [if_pos (decide_eq_true hneg), Int.natCast_mul, habs, Int.neg_mul, Int.neg_neg]
  · have habs : (i.natAbs : Int) = i := Int.natAbs_of_nonneg (Int.not_lt.mp hneg)
    rw [if_neg (by simp [hneg]), Int.natCast_mul, habs]

theorem natAbs_of_signed {negative : Bool} {i : Int} {n unit : Nat}
    (h : (if negative then -(n : Int) else n) = i * unit) : n = i.natAbs * unit := by
  have habs := congrArg Int.natAbs h
  rw [Int.natAbs_mul, Int.natAbs_natCast] at habs
  rw [← habs]
  cases negative <;> simp

/-- The whole number that a number is, from where it lies. -/
theorem whole?_eq_some {n : Binary64} {i : Int} (h : i.natAbs ≤ maxWhole)
    (hposition : n.position? = some (i * Magnitude.unitsPerOne)) : n.whole? = some i := by
  have hunits := (representable_whole h).2
  cases n with
  | nan => cases hposition
  | infinite negative =>
      simp only [position?, Option.some.injEq] at hposition
      have hlimit := natAbs_of_signed hposition
      rw [← hlimit] at hunits
      exact absurd hunits (Nat.lt_irrefl Magnitude.limit)
  | finite negative m =>
      simp only [position?, Option.some.injEq] at hposition
      have hm := natAbs_of_signed hposition
      have hdiv : m.units / Magnitude.unitsPerOne = i.natAbs := by
        rw [hm, Nat.mul_div_cancel _ Magnitude.unitsPerOne_pos]
      have hmod : m.units % Magnitude.unitsPerOne = 0 := by rw [hm, Nat.mul_mod_left]
      have hone : (Magnitude.unitsPerOne : Int) ≠ 0 :=
        Int.natCast_ne_zero.mpr (Nat.ne_of_gt Magnitude.unitsPerOne_pos)
      have hsign : (if negative then -(i.natAbs : Int) else i.natAbs) = i := by
        refine Int.eq_of_mul_eq_mul_right hone ?_
        rw [← hposition, hm, Int.natCast_mul]
        split
        · rw [Int.neg_mul]
        · rfl
      rw [whole?, hdiv, if_pos ⟨hmod, h⟩, hsign]

theorem numericEq_of_position? {a b : Binary64} {x : Int} (ha : a.position? = some x)
    (hb : b.position? = some x) : a.numericEq b = true := by
  rw [numericEq, compare?, ha, hb]
  simp

/-- Numbers are equal when they lie at the same place. -/
theorem numericEq_iff {a b : Binary64} :
    a.numericEq b = true ↔ ∃ x, a.position? = some x ∧ b.position? = some x := by
  constructor
  · intro h
    rw [numericEq, beq_iff_eq, compare?] at h
    cases ha : a.position? with
    | none => simp [ha] at h
    | some x =>
        cases hb : b.position? with
        | none => simp [ha, hb] at h
        | some y =>
            rw [ha, hb] at h
            have heq : compare x y = .eq := Option.some.inj h
            rw [Std.LawfulEqOrd.eq_of_compare heq]
            exact ⟨y, rfl, rfl⟩
  · rintro ⟨x, ha, hb⟩
    exact numericEq_of_position? ha hb

theorem numericEq_self {a : Binary64} (h : a.isNaN = false) : a.numericEq a = true := by
  cases a with
  | nan => cases h
  | infinite negative => exact numericEq_of_position? rfl rfl
  | finite negative m => exact numericEq_of_position? rfl rfl

theorem isNaN_ofInt (i : Int) : (ofInt i).isNaN = false := by
  rw [ofInt, ofRatio, ofUnits]
  split <;> rfl

/-- A number is negative when it lies left of zero. -/
theorem isNegative_of_position? {a : Binary64} {x : Int} (h : a.position? = some x) :
    a.isNegative = decide (x < 0) := by
  have hzero : zero.position? = some 0 := rfl
  rw [isNegative, compare?, h, hzero, Bool.eq_iff_iff]
  simp [Int.compare_eq_lt]

/-- A whole number is rounded without a change of its sign, and no further towards zero than
the next power of two. -/
theorem ofInt_cases (i : Int) :
    (∃ m, ofInt i = .finite (i < 0) m ∧ ∀ bits, 2 ^ bits ≤ i.natAbs →
      2 ^ bits * Magnitude.unitsPerOne ≤ m.units) ∨ ofInt i = .infinite (i < 0) := by
  rw [ofInt, ofRatio, ofUnits]
  split
  · refine .inl ⟨_, rfl, ?_⟩
    intro bits hbits
    have hpower : 2 ^ bits * Magnitude.unitsPerOne = 2 ^ (bits + Magnitude.fractionBits) := by
      rw [Magnitude.unitsPerOne_eq, Nat.pow_add]
    have hle := Nat.mul_le_mul_right Magnitude.unitsPerOne hbits
    rw [hpower] at hle ⊢
    exact Magnitude.two_pow_le_roundUnits (by rwa [Nat.div_one])
  · exact .inr rfl

/-- A magnitude with the sign of a whole number is negative when the whole number is. -/
theorem signed_lt_zero (i : Int) {n : Nat} (hpos : i < 0 → 0 < n) :
    decide ((if decide (i < 0) then -(n : Int) else n) < 0) = decide (i < 0) := by
  by_cases hneg : i < 0
  · have hn := hpos hneg
    simp only [hneg, decide_true, if_true, decide_eq_true_eq]
    omega
  · simp only [hneg, decide_false, Bool.false_eq_true, if_false, decide_eq_false_iff_not]
    omega

theorem isNegative_ofInt (i : Int) : (ofInt i).isNegative = decide (i < 0) := by
  rcases ofInt_cases i with ⟨m, hfinite, hunits⟩ | hinfinite
  · rw [hfinite, isNegative_of_position? rfl]
    apply signed_lt_zero
    intro hneg
    have hone : 2 ^ 0 ≤ i.natAbs := by omega
    have hleast := hunits 0 hone
    have hunit := Magnitude.unitsPerOne_pos
    omega
  · rw [hinfinite, isNegative_of_position? rfl]
    exact signed_lt_zero i fun _ => Magnitude.limit_pos

theorem floorAbs?_ofInt_of_le {i : Int} (h : i.natAbs ≤ maxWhole) :
    (ofInt i).floorAbs? = some i.natAbs := by
  have hunits := ofUnits_units (i < 0)
    ⟨i.natAbs * Magnitude.unitsPerOne, representable_whole h⟩
  rw [ofInt, ofRatio, hunits, floorAbs?, Nat.mul_div_cancel _ Magnitude.unitsPerOne_pos]

/-- Rounding does not carry a large whole number back among the small ones. -/
theorem le_of_floorAbs?_ofInt {i : Int} {n : Nat} (h : maxWhole ≤ i.natAbs)
    (hfloor : (ofInt i).floorAbs? = some n) : maxWhole ≤ n := by
  rcases ofInt_cases i with ⟨m, hfinite, hunits⟩ | hinfinite
  · rw [hfinite, floorAbs?, Option.some.injEq] at hfloor
    rw [← hfloor, Nat.le_div_iff_mul_le Magnitude.unitsPerOne_pos]
    rw [maxWhole_eq] at h ⊢
    exact hunits 53 h
  · rw [hinfinite] at hfloor
    cases hfloor

end Binary64

end WorkflowExpr
