import WorkflowExpr.Rounding

/-!
Binary floating-point numbers of double width. A finite number is a sign and a whole number
of units, one unit being the smallest positive number `2 ^ -1074`; which unit counts exist is
part of the type. Every exact result of arithmetic is a quotient of two natural numbers of
units, and `Binary64.ofUnits` rounds it once, to nearest with ties to even.
-/

namespace WorkflowExpr

namespace Magnitude

/-- The number of low bits that a whole number of units must leave zero: all but the
highest fifty-three. -/
def spareBits (units : Nat) : Nat := units.log2 - 52

/-- The number of bits below the binary point, the place of one unit. -/
def fractionBits : Nat := 1074

def unitsPerOne : Nat := 1 <<< fractionBits

/-- The power of two at which unit counts leave the finite range. -/
def limitExponent : Nat := 2098

/-- The first unit count beyond the finite range. -/
def limit : Nat := 1 <<< limitExponent

/-- The unit counts that a finite number can have. -/
def Representable (units : Nat) : Prop := 1 <<< spareBits units ∣ units ∧ units < limit

instance (units : Nat) : Decidable (Representable units) :=
  inferInstanceAs (Decidable (_ ∧ _))

end Magnitude

/-- The absolute value of a finite number, counted in units of `2 ^ -1074`. -/
structure Magnitude where
  units : Nat
  representable : Magnitude.Representable units
deriving DecidableEq

namespace Magnitude

theorem limit_pos : 0 < limit := by
  rw [limit, Nat.one_shiftLeft]
  exact Nat.two_pow_pos limitExponent

theorem representable_zero : Representable 0 := ⟨Nat.dvd_zero _, limit_pos⟩

def zero : Magnitude := ⟨0, representable_zero⟩

/-- Fifty-three bits above any number of zero bits leave enough low bits zero. -/
theorem shift_spareBits_dvd {m s : Nat} (h : m ≤ 1 <<< 53) :
    1 <<< spareBits (m <<< s) ∣ m <<< s := by
  simp only [Nat.shiftLeft_eq, Nat.one_mul] at h ⊢
  by_cases hm : m = 2 ^ 53
  · subst hm
    rw [← Nat.pow_add]
    apply Nat.pow_dvd_pow
    simp only [spareBits, Nat.log2_two_pow]
    omega
  · by_cases h0 : m * 2 ^ s = 0
    · rw [h0]; exact Nat.dvd_zero _
    · have hlt : m * 2 ^ s < 2 ^ (53 + s) := by
        rw [Nat.pow_add]
        exact Nat.mul_lt_mul_of_pos_right (by omega) (Nat.two_pow_pos s)
      have hlog : (m * 2 ^ s).log2 < 53 + s := (Nat.log2_lt h0).mpr hlt
      have hs : spareBits (m * 2 ^ s) ≤ s := by simp only [spareBits]; omega
      exact Nat.dvd_trans (Nat.pow_dvd_pow 2 hs) (Nat.dvd_mul_left _ _)

/-- The quotient `n / d` rounded to a unit count of fifty-three significant bits. -/
def roundUnits (n d : Nat) : Nat :=
  let spare := spareBits (n / d)
  roundQuotient .toEven n (d <<< spare) <<< spare

theorem shift_spareBits_dvd_roundUnits (n d : Nat) :
    1 <<< spareBits (roundUnits n d) ∣ roundUnits n d := by
  apply shift_spareBits_dvd
  refine Nat.le_trans (roundQuotient_le _ _ _) ?_
  have hlt : n / d < 2 ^ (n / d).log2.succ := Nat.lt_log2_self
  have hle : 2 ^ (n / d).log2.succ ≤ 2 ^ 53 * 2 ^ spareBits (n / d) := by
    rw [← Nat.pow_add]
    exact Nat.pow_le_pow_right (by decide) (by simp only [spareBits]; omega)
  have : n / (d * 2 ^ spareBits (n / d)) < 2 ^ 53 := by
    rw [← Nat.div_div_eq_div_mul]
    exact Nat.div_lt_of_lt_mul (by rw [Nat.mul_comm]; exact Nat.lt_of_lt_of_le hlt hle)
  simp only [Nat.shiftLeft_eq, Nat.one_mul]
  omega

/-- A representable unit count is its own rounding. -/
theorem roundUnits_of_representable {u : Nat} (h : Representable u) : roundUnits u 1 = u := by
  have hdvd : 2 ^ spareBits u ∣ u := by
    rw [← Nat.one_shiftLeft]
    exact h.1
  have hs : 0 < 2 ^ spareBits u := Nat.two_pow_pos _
  have hq : u / 2 ^ spareBits u * 2 ^ spareBits u = u := Nat.div_mul_cancel hdvd
  have hr := roundQuotient_mul .toEven (u / 2 ^ spareBits u) (2 ^ spareBits u) hs
  simp only [roundUnits, Nat.div_one, Nat.shiftLeft_eq, Nat.one_mul]
  rw [hq] at hr
  rw [hr, hq]

end Magnitude

/-- A double-width floating-point number. All payloads of not-a-number are one value. -/
inductive Binary64 where
  | nan
  | infinite (negative : Bool)
  | finite (negative : Bool) (magnitude : Magnitude)
deriving DecidableEq

namespace Binary64

def zero : Binary64 := .finite false .zero

/-- The number nearest to `n / d` units, infinite when that leaves the finite range. -/
def ofUnits (negative : Bool) (n d : Nat) : Binary64 :=
  if h : Magnitude.roundUnits n d < Magnitude.limit then
    .finite negative ⟨Magnitude.roundUnits n d, Magnitude.shift_spareBits_dvd_roundUnits n d, h⟩
  else .infinite negative

def ofRatio (negative : Bool) (n d : Nat) : Binary64 :=
  ofUnits negative (n * Magnitude.unitsPerOne) d

def ofInt (i : Int) : Binary64 := ofRatio (i < 0) i.natAbs 1

def ofNat (n : Nat) : Binary64 := ofRatio false n 1

/-- Rounding does not move a number that exists already. -/
theorem ofUnits_units (negative : Bool) (m : Magnitude) :
    ofUnits negative m.units 1 = .finite negative m := by
  have h := Magnitude.roundUnits_of_representable m.representable
  have hlt : Magnitude.roundUnits m.units 1 < Magnitude.limit := by
    rw [h]; exact m.representable.2
  rw [ofUnits, dif_pos hlt]
  simp only [h]

def isNaN : Binary64 → Bool
  | .nan => true
  | _ => false

def isInfinite : Binary64 → Bool
  | .infinite _ => true
  | _ => false

def isZero : Binary64 → Bool
  | .finite _ m => m.units == 0
  | _ => false

/-- The position of a number on the number line, in units; not-a-number has none. Both zeros
share a position, and the infinities lie beyond every finite number. -/
def position? : Binary64 → Option Int
  | .nan => none
  | .infinite negative => some (if negative then -Magnitude.limit else Magnitude.limit)
  | .finite negative m => some (if negative then -m.units else m.units)

/-- The order of two numbers, undefined when either is not a number. -/
def compare? (a b : Binary64) : Option Ordering :=
  match a.position?, b.position? with
  | some x, some y => some (compare x y)
  | _, _ => none

/-- Numeric equality: zeros of both signs are equal and not-a-number equals nothing. -/
def numericEq (a b : Binary64) : Bool := a.compare? b == some .eq

def isNegative (a : Binary64) : Bool := a.compare? zero == some .lt

/-- The whole part of a finite number's absolute value. -/
def floorAbs? : Binary64 → Option Nat
  | .finite _ m => some (m.units / Magnitude.unitsPerOne)
  | _ => none

end Binary64

end WorkflowExpr
