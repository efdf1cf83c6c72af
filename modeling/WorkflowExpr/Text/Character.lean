/-!
Classes of characters. A class of Unicode is given by the ranges of its code points. Blanks
surround a number without belonging to it: they are white space as Unicode defines it, and the
byte order mark. Digits have a value in decimal or in a base up to sixteen.
-/

namespace WorkflowExpr.Text

/-- The first and the last code point of a range. -/
abbrev CodeRange := Nat × Nat

def inRanges (ranges : List CodeRange) (c : Char) : Bool :=
  ranges.any fun range => range.1 ≤ c.toNat && c.toNat ≤ range.2

def whiteSpaceRanges : List CodeRange :=
  [(0x09, 0x0D), (0x20, 0x20), (0x85, 0x85), (0xA0, 0xA0), (0x1680, 0x1680), (0x2000, 0x200A),
    (0x2028, 0x2029), (0x202F, 0x202F), (0x205F, 0x205F), (0x3000, 0x3000)]

def isWhiteSpace (c : Char) : Bool := inRanges whiteSpaceRanges c

def byteOrderMark : Char := '\uFEFF'

/-- Whether a character is passed over around a number. -/
def isBlank (c : Char) : Bool := isWhiteSpace c || c == byteOrderMark

def trimBlank (text : List Char) : List Char :=
  ((text.dropWhile isBlank).reverse.dropWhile isBlank).reverse

def decimalValue (c : Char) : Nat := c.toNat - '0'.toNat

/-- The value of a digit in a base of at most sixteen. -/
def digitValue? (base : Nat) (c : Char) : Option Nat :=
  let value? :=
    if c.isDigit then some (decimalValue c)
    else if 'a' ≤ c ∧ c ≤ 'f' then some (c.toNat - 'a'.toNat + 10)
    else if 'A' ≤ c ∧ c ≤ 'F' then some (c.toNat - 'A'.toNat + 10)
    else none
  value?.filter (· < base)

end WorkflowExpr.Text
