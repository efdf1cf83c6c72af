import WorkflowExpr.Decimal.Basic

/-!
Writing a decimal number as text. One function writes every style; a style is a record that
says which numbers are written without an exponent and how an exponent looks.
-/

namespace WorkflowExpr

structure DecimalLayout where
  /-- Whether a number whose first digit stands at this power of ten has no exponent. -/
  isPlain : Int → Bool
  /-- Whether a whole number without an exponent still gets a fraction. -/
  keepsFraction : Bool
  exponentMark : Char
  /-- The least number of digits in an exponent. -/
  exponentWidth : Nat

namespace DecimalLayout

/-- A natural number with leading zeros up to a width. -/
def padded (width n : Nat) : List Char :=
  let digits := Nat.toDigits 10 n
  List.replicate (width - digits.length) '0' ++ digits

def pointed (layout : DecimalLayout) (digits : List Char) (whole : Nat) : List Char :=
  if digits.length ≤ whole then
    digits ++ List.replicate (whole - digits.length) '0' ++
      (if layout.keepsFraction then ['.', '0'] else [])
  else digits.take whole ++ '.' :: digits.drop whole

/-- Digits without an exponent, the first of them at the power of ten `leading`. -/
def writePlain (layout : DecimalLayout) (digits : List Char) (leading : Int) : List Char :=
  if leading < 0 then '0' :: '.' :: List.replicate (-leading - 1).toNat '0' ++ digits
  else layout.pointed digits (leading.toNat + 1)

/-- Digits with the point after the first and the power of ten behind. -/
def writeScientific (layout : DecimalLayout) (digits : List Char) (leading : Int) : List Char :=
  digits.take 1 ++ (if digits.length ≤ 1 then [] else '.' :: digits.drop 1) ++
    layout.exponentMark :: (if leading < 0 then '-' else '+') ::
      padded layout.exponentWidth leading.natAbs

/-- The text of a decimal, which should be in normal form. -/
def write (layout : DecimalLayout) (d : Decimal) : List Char :=
  let digits := Nat.toDigits 10 d.digits
  let leading := d.exponent + digits.length - 1
  if layout.isPlain leading then layout.writePlain digits leading
  else layout.writeScientific digits leading

end DecimalLayout

end WorkflowExpr
