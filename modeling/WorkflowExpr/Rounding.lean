/-!
Rounding a quotient of natural numbers to a natural number. Binary rounding, significant
decimal digits and the choice between two decimal candidates all use this one function, so
the direction of a tie is a parameter. The lemmas say that the result is one of the two
neighbours of the quotient and never further than half a unit from it.
-/

namespace WorkflowExpr

/-- Where a quotient exactly halfway between two neighbours goes. -/
inductive Tie where
  | toEven
  | up
deriving DecidableEq, Repr

/-- Whether a tie above the lower neighbour `q` goes up. -/
def Tie.goesUp : Tie → Nat → Bool
  | .toEven, q => q % 2 == 1
  | .up, _ => true

/-- The natural number nearest to `n / d`, for a positive `d`. -/
def roundQuotient (tie : Tie) (n d : Nat) : Nat :=
  if 2 * (n % d) < d then n / d
  else if d < 2 * (n % d) then n / d + 1
  else if tie.goesUp (n / d) then n / d + 1 else n / d

theorem roundQuotient_eq_or (tie : Tie) (n d : Nat) :
    (roundQuotient tie n d = n / d ∧ 2 * (n % d) ≤ d) ∨
      (roundQuotient tie n d = n / d + 1 ∧ d ≤ 2 * (n % d)) := by
  unfold roundQuotient
  split
  · exact .inl ⟨rfl, by omega⟩
  · split
    · exact .inr ⟨rfl, by omega⟩
    · split
      · exact .inr ⟨rfl, by omega⟩
      · exact .inl ⟨rfl, by omega⟩

theorem div_le_roundQuotient (tie : Tie) (n d : Nat) : n / d ≤ roundQuotient tie n d := by
  rcases roundQuotient_eq_or tie n d with ⟨h, _⟩ | ⟨h, _⟩ <;> omega

theorem roundQuotient_le (tie : Tie) (n d : Nat) : roundQuotient tie n d ≤ n / d + 1 := by
  rcases roundQuotient_eq_or tie n d with ⟨h, _⟩ | ⟨h, _⟩ <;> omega

/-- A quotient that is already a whole number is kept. -/
theorem roundQuotient_mul (tie : Tie) (k d : Nat) (hd : 0 < d) :
    roundQuotient tie (k * d) d = k := by
  unfold roundQuotient
  have hmod : k * d % d = 0 := Nat.mul_mod_left k d
  have hdiv : k * d / d = k := Nat.mul_div_cancel k hd
  rw [hmod, hdiv, if_pos (by omega)]

end WorkflowExpr
