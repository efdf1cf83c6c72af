import WorkflowExpr.Binary64.Arith
import WorkflowExpr.Decimal.Basic
import WorkflowExpr.Text.Character

/-!
Reading a text as a number. The reading never fails: what is no number is not-a-number. A
text is blank and then zero, or a decimal, a hexadecimal or octal whole number, or a spelling
of infinity. Decimals are rounded once; digits of the other two bases are taken in one after
the other, each step rounded.
-/

namespace WorkflowExpr.Numeral

/-- An optional sign, true for minus, and what follows. -/
def readSign : List Char → Bool × List Char
  | '-' :: rest => (true, rest)
  | '+' :: rest => (false, rest)
  | rest => (false, rest)

def ofDigits (digits : List Char) : Nat := Nat.ofDigitChars 10 digits 0

/-- An exponent part, zero when there is none. The text has to end with it. -/
def readExponent? : List Char → Option Int
  | [] => some 0
  | mark :: rest =>
      let (negative, digits) := readSign rest
      if (mark = 'e' ∨ mark = 'E') ∧ digits ≠ [] ∧ digits.all Char.isDigit then
        some (if negative then -(ofDigits digits : Int) else ofDigits digits)
      else none

/-- The digits after a point, none when there is no point, and what follows. -/
def readFraction : List Char → List Char × List Char
  | '.' :: rest => rest.span Char.isDigit
  | rest => ([], rest)

/-- A whole text as a signed decimal: digits before a point or after it or on both sides,
and an optional exponent. -/
def readDecimal? (text : List Char) : Option (Bool × Decimal) :=
  let (negative, body) := readSign text
  let (whole, rest) := body.span Char.isDigit
  let (fraction, rest) := readFraction rest
  if whole = [] ∧ fraction = [] then none
  else
    (readExponent? rest).map fun exponent =>
      (negative, ⟨ofDigits (whole ++ fraction), exponent - fraction.length⟩)

/-- Takes in one more digit. Both steps round. -/
def pushDigit (base : Nat) (number : Binary64) (digit : Nat) : Binary64 :=
  number * .ofNat base + .ofNat digit

def readRadix? (base : Nat) (digits : List Char) : Option Binary64 :=
  if digits = [] then none
  else (digits.mapM (Text.digitValue? base)).map fun values => values.foldl (pushDigit base) .zero

def readMarked? : List Char → Option Binary64
  | '0' :: 'x' :: digits | '0' :: 'X' :: digits => readRadix? 16 digits
  | '0' :: 'o' :: digits => readRadix? 8 digits
  | _ => none

def readInfinity? (text : List Char) : Option Binary64 :=
  if text = "Infinity".toList ∨ text = "+Infinity".toList then some (.infinite false)
  else if text = "-Infinity".toList then some (.infinite true)
  else none

/-- The number that a text without surrounding blanks writes. -/
def readTrimmed (text : List Char) : Binary64 :=
  if text = [] then .zero
  else
    match readDecimal? text with
    | some (negative, d) => d.nearest negative
    | none => ((readMarked? text).or (readInfinity? text)).getD .nan

def read (text : String) : Binary64 := readTrimmed (Text.trimBlank text.toList)

end WorkflowExpr.Numeral
