import WorkflowExpr.Binary64.Arith
import WorkflowExpr.Json.Basic
import WorkflowExpr.Json.SyntaxError
import WorkflowExpr.Text.Character

/-!
Reading numbers in JSON text. A reader yields its result and the text left over, or a fault.
Digits gather in a significand of sixty-four bits and an exponent counts what does not fit. A
number without fraction and exponent stays a whole number; any other is scaled by powers of
ten in at most a few rounded steps, so it is near the decimal but not always the nearest.
-/

namespace WorkflowExpr.Json

namespace Number

def significandLimit : Nat := 1 <<< 64

/-- The greatest exponent that is taken at its value. -/
def exponentLimit : Nat := 1 <<< 31 - 1

/-- The greatest power of ten by which a number is scaled in one step. -/
def greatestPower : Nat := 308

/-- A significand with one more digit, unless it would grow too large. -/
def pushDigit? (significand : Nat) (c : Char) : Option Nat :=
  let next := significand * 10 + Text.decimalValue c
  if next < significandLimit then some next else none

def powerOfTen (k : Nat) : Binary64 := .ofNat (Nat.pow 10 k)

/-- Divides by a power of ten, in steps when the power is too large for one. -/
def divPower (x : Binary64) (k : Nat) : Binary64 :=
  if k ≤ greatestPower then x / powerOfTen k
  else if x.isZero then x
  else divPower (x / powerOfTen greatestPower) (k - greatestPower)
termination_by k
decreasing_by simp only [greatestPower] at *; omega

def scale? (significand : Nat) (exponent : Int) : Option Binary64 :=
  let x := Binary64.ofNat significand
  if exponent < 0 then some (divPower x exponent.natAbs)
  else if greatestPower < exponent.natAbs then if x.isZero then some x else none
  else
    let scaled := x * powerOfTen exponent.natAbs
    if scaled.isInfinite then none else some scaled

def signed (negative : Bool) (x : Binary64) : Binary64 := if negative then -x else x

def ofParts (negative : Bool) (significand : Nat) (exponent : Int) (rest : List Char) :
    Except Fault (Json × List Char) :=
  match scale? significand exponent with
  | some x => .ok (.float (signed negative x), rest)
  | none => .error (.before .numberOutOfRange rest)

/-- The number of a significand without fraction and exponent. Negative zero and whole
numbers below the least of sixty-four bits are no longer whole. -/
def ofWhole (negative : Bool) (significand : Nat) : Json :=
  if negative then
    if significand = 0 ∨ 1 <<< 63 < significand then .float (-(.ofNat significand))
    else .int (-significand)
  else .int significand

/-- The digits of an exponent after the first one. The left result is the text after the
digit that made the exponent too large. -/
def readExponentDigits (exponent : Nat) : List Char → Except (List Char) (Nat × List Char)
  | [] => .ok (exponent, [])
  | c :: rest =>
      if c.isDigit then
        let next := exponent * 10 + Text.decimalValue c
        if next ≤ exponentLimit then readExponentDigits next rest else .error rest
      else .ok (exponent, c :: rest)

/-- An exponent whose sign has been read, behind a significand with an exponent of its own.
An exponent that is too large is an error only if it makes a number too large. -/
def readSignedExponent (negative : Bool) (significand : Nat) (start : Int) (below : Bool) :
    List Char → Except Fault (Json × List Char)
  | [] => .error (.before .endInValue [])
  | c :: rest =>
      if c.isDigit then
        match readExponentDigits (Text.decimalValue c) rest with
        | .ok (exponent, rest) =>
            ofParts negative significand (if below then start - exponent else start + exponent) rest
        | .error rest =>
            if significand ≠ 0 ∧ below = false then .error (.before .numberOutOfRange rest)
            else .ok (.float (signed negative .zero), rest.dropWhile Char.isDigit)
      else .error (.at .invalidNumber (c :: rest))

def readExponent (negative : Bool) (significand : Nat) (start : Int) :
    List Char → Except Fault (Json × List Char)
  | '+' :: rest => readSignedExponent negative significand start false rest
  | '-' :: rest => readSignedExponent negative significand start true rest
  | rest => readSignedExponent negative significand start false rest

def readTail (negative : Bool) (significand : Nat) (exponent : Int) :
    List Char → Except Fault (Json × List Char)
  | 'e' :: rest | 'E' :: rest => readExponent negative significand exponent rest
  | rest => ofParts negative significand exponent rest

/-- The digits of a fraction. From the first that does not fit they are passed over. -/
def readFractionDigits (negative : Bool) (significand : Nat) (exponent : Int) :
    List Char → Except Fault (Json × List Char)
  | [] => readTail negative significand exponent []
  | c :: rest =>
      if c.isDigit then
        match pushDigit? significand c with
        | some significand => readFractionDigits negative significand (exponent - 1) rest
        | none => readTail negative significand exponent (rest.dropWhile Char.isDigit)
      else readTail negative significand exponent (c :: rest)

def readFraction (negative : Bool) (significand : Nat) (exponent : Int) :
    List Char → Except Fault (Json × List Char)
  | [] => .error (.before .endInValue [])
  | c :: rest =>
      if c.isDigit then readFractionDigits negative significand exponent (c :: rest)
      else .error (.at .invalidNumber (c :: rest))

def readLongTail (negative : Bool) (significand : Nat) (exponent : Int) :
    List Char → Except Fault (Json × List Char)
  | '.' :: rest => readFraction negative significand exponent rest
  | rest => readTail negative significand exponent rest

def readWholeTail (negative : Bool) (significand : Nat) :
    List Char → Except Fault (Json × List Char)
  | '.' :: rest => readFraction negative significand 0 rest
  | 'e' :: rest | 'E' :: rest => readExponent negative significand 0 rest
  | rest => .ok (ofWhole negative significand, rest)

/-- The whole digits of a number after the first. Those that do not fit are only counted. -/
def readWholeDigits (negative : Bool) (significand : Nat) :
    List Char → Except Fault (Json × List Char)
  | [] => readWholeTail negative significand []
  | c :: rest =>
      if c.isDigit then
        match pushDigit? significand c with
        | some significand => readWholeDigits negative significand rest
        | none =>
            let more := (c :: rest).takeWhile Char.isDigit
            readLongTail negative significand more.length (rest.dropWhile Char.isDigit)
      else readWholeTail negative significand (c :: rest)

def startsDigit : List Char → Bool
  | [] => false
  | c :: _ => c.isDigit

/-- A number after its sign. A leading zero stands alone. -/
def readUnsigned (negative : Bool) : List Char → Except Fault (Json × List Char)
  | [] => .error (.before .endInValue [])
  | '0' :: rest =>
      if startsDigit rest then .error (.at .invalidNumber rest)
      else readWholeTail negative 0 rest
  | c :: rest =>
      if c.isDigit then readWholeDigits negative (Text.decimalValue c) rest
      else .error (.at .invalidNumber (c :: rest))

end Number

end WorkflowExpr.Json
