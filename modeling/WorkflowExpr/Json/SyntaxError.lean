/-!
Errors in JSON text: what was wrong, and where. A place is found from how much of the text was
left unread; lines count from one and columns count bytes.
-/

namespace WorkflowExpr.Json

inductive Cause where
  | endInValue
  | endInList
  | endInObject
  | endInString
  | expectedValue
  | expectedIdent
  | invalidNumber
  | numberOutOfRange
  | expectedColon
  | expectedListSeparator
  | expectedObjectSeparator
  | trailingComma
  | keyNotString
  | trailingCharacters
  | invalidEscape
  | loneSurrogate
  | endOfHexEscape
  | controlCharacter
  | tooDeep
deriving DecidableEq, Repr

def Cause.text : Cause → String
  | .endInValue => "EOF while parsing a value"
  | .endInList => "EOF while parsing a list"
  | .endInObject => "EOF while parsing an object"
  | .endInString => "EOF while parsing a string"
  | .expectedValue => "expected value"
  | .expectedIdent => "expected ident"
  | .invalidNumber => "invalid number"
  | .numberOutOfRange => "number out of range"
  | .expectedColon => "expected \x60:\x60"
  | .expectedListSeparator => "expected \x60,\x60 or \x60]\x60"
  | .expectedObjectSeparator => "expected \x60,\x60 or \x60\x7d\x60"
  | .trailingComma => "trailing comma"
  | .keyNotString => "key must be a string"
  | .trailingCharacters => "trailing characters"
  | .invalidEscape => "invalid escape"
  | .loneSurrogate => "lone leading surrogate in hex escape"
  | .endOfHexEscape => "unexpected end of hex escape"
  | .controlCharacter => "control character (\\u0000-\\u001F) found while parsing a string"
  | .tooDeep => "recursion limit exceeded"

/-- A line of a text and a byte column in it. -/
structure Position where
  line : Nat
  column : Nat
deriving DecidableEq, Repr

namespace Position

def start : Position := ⟨1, 0⟩

/-- The position a number of bytes further on, or at the end of the text. -/
def advance (position : Position) : Nat → List Char → Position
  | _, [] => position
  | 0, _ => position
  | bytes, c :: rest =>
      if c = '\n' then advance ⟨position.line + 1, 0⟩ (bytes - 1) rest
      else
        advance ⟨position.line, position.column + min c.utf8Size bytes⟩ (bytes - c.utf8Size) rest

end Position

def byteCount (text : List Char) : Nat := text.foldr (fun c count => c.utf8Size + count) 0

/-- Where reading stopped: the text that was left, and how many bytes of it had been looked
at. -/
structure Fault where
  cause : Cause
  rest : List Char
  seen : Nat

/-- A fault at the first byte of what is left. -/
def Fault.at (cause : Cause) (rest : List Char) : Fault := ⟨cause, rest, 1⟩

/-- A fault just before what is left. -/
def Fault.before (cause : Cause) (rest : List Char) : Fault := ⟨cause, rest, 0⟩

structure SyntaxError where
  cause : Cause
  position : Position
deriving DecidableEq, Repr

def SyntaxError.ofFault (text : List Char) (fault : Fault) : SyntaxError :=
  ⟨fault.cause,
    Position.start.advance (byteCount text - byteCount fault.rest + fault.seen) text⟩

def SyntaxError.message (e : SyntaxError) : String :=
  e.cause.text ++ " at line " ++ toString e.position.line ++
    " column " ++ toString e.position.column

end WorkflowExpr.Json
