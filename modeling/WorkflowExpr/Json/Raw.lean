import WorkflowExpr.Json.Reader

/-!
Passing over values in JSON text without making anything of them. Only their form is checked:
containers may be nested to any depth, numbers may be of any size, and escapes need not make
characters.
-/

namespace WorkflowExpr.Json.Raw

open Reader

def skipExponent (text : List Char) : Except Fault (Unit × List Char) :=
  let unsigned :=
    match text with
    | '+' :: rest | '-' :: rest => rest
    | rest => rest
  if Number.startsDigit unsigned then .ok ((), unsigned.dropWhile Char.isDigit)
  else .error (.at .invalidNumber unsigned)

def skipTail : List Char → Except Fault (Unit × List Char)
  | 'e' :: rest | 'E' :: rest => skipExponent rest
  | rest => .ok ((), rest)

/-- What follows the whole digits of a number. -/
def skipFraction : List Char → Except Fault (Unit × List Char)
  | '.' :: rest =>
      if Number.startsDigit rest then skipTail (rest.dropWhile Char.isDigit)
      else .error (.at .invalidNumber rest)
  | rest => skipTail rest

def skipNumber : List Char → Except Fault (Unit × List Char)
  | '0' :: rest =>
      if Number.startsDigit rest then .error (.at .invalidNumber rest) else skipFraction rest
  | rest =>
      if Number.startsDigit rest then skipFraction (rest.dropWhile Char.isDigit)
      else .error (.at .invalidNumber rest)

def skipString : List Char → Except Fault (Unit × List Char)
  | [] => .error (.before .endInString [])
  | '"' :: rest => .ok ((), rest)
  | '\\' :: 'u' :: a :: b :: c :: d :: rest =>
      if [a, b, c, d].all fun digit => (Text.digitValue? 16 digit).isSome then skipString rest
      else .error (.at .invalidEscape (a :: b :: c :: d :: rest))
  | '\\' :: c :: rest =>
      if c ∈ ['"', '\\', '/', 'b', 'f', 'n', 'r', 't'] then skipString rest
      else .error (.at .invalidEscape (c :: rest))
  | c :: rest =>
      if c = '\\' ∨ c.toNat < 0x20 then .error (.at .controlCharacter (c :: rest))
      else skipString rest

/-- A value with space in front of it, of which `room` levels may be containers. -/
def skipValue : (room : Nat) → List Char → Except Fault (Unit × List Char)
  | room, text =>
      match skipSpace text with
      | [] => .error (.before .endInValue [])
      | 'n' :: rest => readWord () "ull".toList rest
      | 't' :: rest => readWord () "rue".toList rest
      | 'f' :: rest => readWord () "alse".toList rest
      | '-' :: rest => skipNumber rest
      | '"' :: rest => skipString rest
      | '[' :: rest =>
          match room with
          | 0 => .error (.at .tooDeep ('[' :: rest))
          | room + 1 => do
              let (_, rest) ← readArray (skipValue room) rest
              return ((), rest)
      | '\x7b' :: rest =>
          match room with
          | 0 => .error (.at .tooDeep ('\x7b' :: rest))
          | room + 1 => do
              let (_, rest) ← readObject skipString (skipValue room) rest
              return ((), rest)
      | rest =>
          if Number.startsDigit rest then skipNumber rest else .error (.at .expectedValue rest)

/-- The text of a value, and what follows. A text is never nested deeper than it is long. -/
def readRaw (text : List Char) : Except Fault (List Char × List Char) := do
  let (_, rest) ← skipValue text.length text
  return (text.take (text.length - rest.length), rest)

end WorkflowExpr.Json.Raw
