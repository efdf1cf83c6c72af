import WorkflowExpr.Binary64.Basic

/-!
Non-negative decimal numbers, a natural number scaled by a power of ten. This module has
their exact value as a quotient of natural numbers, the normal form without trailing zeros,
the exponent of the first significant digit, rounding to a count of significant digits, and
the floating-point number nearest to a decimal.
-/

namespace WorkflowExpr

/-- The number `digits * 10 ^ exponent`. -/
structure Decimal where
  digits : Nat
  exponent : Int
deriving DecidableEq, Repr

namespace Decimal

/-- How many decimal digits a natural number has, none for zero. -/
def digitCount (n : Nat) : Nat := if n = 0 then 0 else (Nat.toDigits 10 n).length

theorem digitCount_le_iff (n k : Nat) : digitCount n ≤ k ↔ n < Nat.pow 10 k := by
  unfold digitCount
  split
  · rename_i h
    subst h
    exact ⟨fun _ => Nat.pow_pos (by decide), fun _ => Nat.zero_le _⟩
  · rename_i h
    cases k with
    | zero =>
        have : 0 < (Nat.toDigits 10 n).length := Nat.length_toDigits_pos
        simp only [Nat.pow_eq, Nat.pow_zero]
        omega
    | succ k => exact Nat.length_toDigits_le_iff (by decide) (Nat.succ_pos k)

def numerator (d : Decimal) : Nat := d.digits * Nat.pow 10 d.exponent.toNat

def denominator (d : Decimal) : Nat := Nat.pow 10 (-d.exponent).toNat

/-- The same value with no trailing zero among its digits. -/
def normalize (d : Decimal) : Decimal :=
  if d.digits ≠ 0 ∧ d.digits % 10 = 0 then normalize ⟨d.digits / 10, d.exponent + 1⟩ else d
termination_by d.digits

/-- The exponent of the first significant digit. -/
def leadingExponent (d : Decimal) : Int := d.exponent + digitCount d.digits - 1

/-- The power of ten at the first significant digit of `n / d`, for positive `n` and `d`. -/
def quotientExponent (n d : Nat) : Int :=
  if d ≤ n then (digitCount (n / d) : Int) - 1 else -(digitCount ((d - 1) / n) : Int)

/-- A quotient measured in steps of `10 ^ step`, again as a quotient. -/
def stepsOf (n d : Nat) (step : Int) : Nat × Nat :=
  (n * Nat.pow 10 (-step).toNat, d * Nat.pow 10 step.toNat)

def roundSignificant (tie : Tie) (count : Nat) (n d : Nat) : Decimal :=
  let step := quotientExponent n d - count + 1
  let steps := stepsOf n d step
  normalize ⟨roundQuotient tie steps.1 steps.2, step⟩

/-- Decimals with a leading exponent above this one are beyond the finite range. -/
def greatestExponent : Int := 310

/-- Decimals with a leading exponent below this one are nearer to zero than to any other
number. -/
def leastExponent : Int := -330

/-- The floating-point number nearest to a decimal. Exponents far outside the range are
answered without computing the power of ten. -/
def nearest (negative : Bool) (d : Decimal) : Binary64 :=
  if d.digits = 0 ∨ d.leadingExponent < leastExponent then .finite negative .zero
  else if greatestExponent < d.leadingExponent then .infinite negative
  else .ofRatio negative d.numerator d.denominator

end Decimal

end WorkflowExpr
