import WorkflowExpr.Decimal.Layout
import WorkflowExpr.Decimal.Shortest

/-!
The text of a number where numbers meet strings: fifteen significant digits, with an exponent
outside a middle range. Beside it stands the plain text used in messages, the shortest
decimal without any exponent.
-/

namespace WorkflowExpr.Numeral

/-- The text of a number in an expression keeps fifteen significant digits. -/
def significantDigits : Nat := 15

/-- Numbers from a ten-thousandth up to the last kept digit have no exponent; others have one
of at least two digits behind a capital mark. -/
def generalLayout : DecimalLayout :=
  ⟨fun leading => -4 ≤ leading && leading < significantDigits, false, 'E', 2⟩

/-- Every number is written out, however large or small. -/
def plainLayout : DecimalLayout := ⟨fun _ => true, false, 'e', 1⟩

def signText (negative : Bool) : List Char := if negative then ['-'] else []

/-- The text of a number in an expression. Zero has no sign. -/
def write : Binary64 → String
  | .nan => "NaN"
  | .infinite negative => if negative then "-Infinity" else "Infinity"
  | .finite negative m =>
      if m.units = 0 then "0"
      else
        let d := Decimal.roundSignificant .toEven significantDigits m.units Magnitude.unitsPerOne
        String.ofList (signText negative ++ generalLayout.write d)

/-- The text of a number in a message: the shortest decimal, a tie going up, and zero with
its sign. -/
def writePlain : Binary64 → String
  | .nan => "NaN"
  | .infinite negative => if negative then "-inf" else "inf"
  | .finite negative m =>
      let d := if m.units = 0 then ⟨0, 0⟩ else m.shortest .up
      String.ofList (signText negative ++ plainLayout.write d)

end WorkflowExpr.Numeral
