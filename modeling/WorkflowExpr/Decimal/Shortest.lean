import WorkflowExpr.Decimal.Basic

/-!
The shortest decimal that reads back as a given finite number. For each count of digits the
two neighbours of the value on that decimal grid are tried, since a grid that has any point
reading back has one of these two; the first grid with a hit wins, and of two hits the nearer
one. Seventeen digits always suffice.
-/

namespace WorkflowExpr.Magnitude

def readsBack (m : Magnitude) (d : Decimal) : Bool :=
  roundUnits (d.numerator * unitsPerOne) d.denominator == m.units

/-- The neighbour of a quotient of steps that reads back, the nearer one if both do. -/
def choose? (tie : Tie) (reads : Decimal → Bool) (step : Int) (steps : Nat × Nat) :
    Option Decimal :=
  let lower : Decimal := ⟨steps.1 / steps.2, step⟩
  let upper : Decimal := ⟨steps.1 / steps.2 + 1, step⟩
  match reads lower, reads upper with
  | true, true => some ⟨roundQuotient tie steps.1 steps.2, step⟩
  | true, false => some lower
  | false, true => some upper
  | false, false => none

/-- The neighbour of the value with the given count of digits that reads back. -/
def neighbour? (tie : Tie) (m : Magnitude) (count : Nat) : Option Decimal :=
  let step := Decimal.quotientExponent m.units unitsPerOne - count + 1
  choose? tie m.readsBack step (Decimal.stepsOf m.units unitsPerOne step)

/-- The decimal with the fewest digits that reads back as a positive magnitude. -/
def shortest (tie : Tie) (m : Magnitude) : Decimal :=
  let found := (List.range' 1 16).findSome? (m.neighbour? tie)
  (found.map Decimal.normalize).getD (Decimal.roundSignificant tie 17 m.units unitsPerOne)

end WorkflowExpr.Magnitude
