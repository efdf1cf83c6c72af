import WorkflowExpr.Json.Number

/-!
Reading JSON text as a document. The text is read from left to right and the first fault ends
the reading; a fault inside an element comes before one of the container around it.
-/

namespace WorkflowExpr.Json

namespace Reader

def isSpace (c : Char) : Bool := c == ' ' || c == '\n' || c == '\t' || c == '\r'

def skipSpace (text : List Char) : List Char := text.dropWhile isSpace

/-- Four hexadecimal digits. With fewer than four bytes left the text ends too early. -/
def readHex (text : List Char) : Except Fault (Nat × List Char) :=
  if byteCount text < 4 then .error (.before .endInString [])
  else
    match (text.take 4).mapM (Text.digitValue? 16) with
    | some values => .ok (values.foldl (fun n value => n * 16 + value) 0, text.drop 4)
    | none => .error ⟨.invalidEscape, text, 4⟩

def isLeading (unit : Nat) : Bool := 0xD800 ≤ unit && unit < 0xDC00

def isTrailing (unit : Nat) : Bool := 0xDC00 ≤ unit && unit < 0xE000

def pairChar (leading trailing : Nat) : Char :=
  Char.ofNat ((leading - 0xD800) * 0x400 + (trailing - 0xDC00) + 0x10000)

/-- The second half of a surrogate pair, which is an escape again. -/
def readTrailing (leading : Nat) : List Char → Except Fault (Char × List Char)
  | [] | ['\\'] => .error (.before .endInString [])
  | '\\' :: 'u' :: rest => do
      let (unit, rest) ← readHex rest
      if isTrailing unit then return (pairChar leading unit, rest)
      else .error (.before .loneSurrogate rest)
  | '\\' :: rest => .error (.at .endOfHexEscape rest)
  | rest => .error (.at .endOfHexEscape rest)

def readHexEscape (text : List Char) : Except Fault (Char × List Char) := do
  let (unit, rest) ← readHex text
  if isTrailing unit then .error (.before .loneSurrogate rest)
  else if isLeading unit then readTrailing unit rest
  else return (Char.ofNat unit, rest)

def readEscape : List Char → Except Fault (Char × List Char)
  | [] => .error (.before .endInString [])
  | '"' :: rest => .ok ('"', rest)
  | '\\' :: rest => .ok ('\\', rest)
  | '/' :: rest => .ok ('/', rest)
  | 'b' :: rest => .ok ('\x08', rest)
  | 'f' :: rest => .ok ('\x0c', rest)
  | 'n' :: rest => .ok ('\n', rest)
  | 'r' :: rest => .ok ('\r', rest)
  | 't' :: rest => .ok ('\t', rest)
  | 'u' :: rest => readHexEscape rest
  | rest => .error (.at .invalidEscape rest)

/-- The characters of a string up to its closing quote. The count bounds their number. -/
def readChars : Nat → List Char → Except Fault (List Char × List Char)
  | 0, rest => .error (.before .endInString rest)
  | _, [] => .error (.before .endInString [])
  | _, '"' :: rest => .ok ([], rest)
  | bound + 1, '\\' :: rest => do
      let (c, rest) ← readEscape rest
      let (cs, rest) ← readChars bound rest
      return (c :: cs, rest)
  | bound + 1, c :: rest =>
      if c.toNat < 0x20 then .error (.at .controlCharacter (c :: rest))
      else do
        let (cs, rest) ← readChars bound rest
        return (c :: cs, rest)

def readString (text : List Char) : Except Fault (String × List Char) := do
  let (cs, rest) ← readChars (text.length + 1) text
  return (String.ofList cs, rest)

/-- The rest of a word whose first letter has been seen. -/
def readWord {α : Type} (value : α) :
    List Char → List Char → Except Fault (α × List Char)
  | [], rest => .ok (value, rest)
  | _ :: _, [] => .error (.before .endInValue [])
  | expected :: word, c :: rest =>
      if c = expected then readWord value word rest else .error (.at .expectedIdent (c :: rest))

section Containers

variable {ν α : Type} (readName : List Char → Except Fault (ν × List Char))
  (readItem : List Char → Except Fault (α × List Char))

/-- The items of an array after the first. The count bounds their number. -/
def readItems : Nat → List Char → Except Fault (List α × List Char)
  | 0, rest => .error (.before .endInList rest)
  | bound + 1, text =>
      match skipSpace text with
      | [] => .error (.before .endInList [])
      | ']' :: rest => .ok ([], rest)
      | ',' :: rest =>
          match skipSpace rest with
          | [] => .error (.before .endInValue [])
          | ']' :: rest => .error (.at .trailingComma (']' :: rest))
          | rest => do
              let (item, rest) ← readItem rest
              let (items, rest) ← readItems bound rest
              return (item :: items, rest)
      | rest => .error (.at .expectedListSeparator rest)

def readArray (text : List Char) : Except Fault (List α × List Char) :=
  match skipSpace text with
  | [] => .error (.before .endInList [])
  | ']' :: rest => .ok ([], rest)
  | rest => do
      let (item, rest) ← readItem rest
      let (items, rest) ← readItems readItem (rest.length + 1) rest
      return (item :: items, rest)

/-- A member of an object after the opening quote of its name. -/
def readMember (text : List Char) : Except Fault ((ν × α) × List Char) := do
  let (name, rest) ← readName text
  match skipSpace rest with
  | [] => .error (.before .endInObject [])
  | ':' :: rest => do
      let (value, rest) ← readItem rest
      return ((name, value), rest)
  | rest => .error (.at .expectedColon rest)

/-- The members of an object after the first. The count bounds their number. -/
def readMembers : Nat → List Char → Except Fault (List (ν × α) × List Char)
  | 0, rest => .error (.before .endInObject rest)
  | bound + 1, text =>
      match skipSpace text with
      | [] => .error (.before .endInObject [])
      | '\x7d' :: rest => .ok ([], rest)
      | ',' :: rest =>
          match skipSpace rest with
          | [] => .error (.before .endInValue [])
          | '"' :: rest => do
              let (member, rest) ← readMember readName readItem rest
              let (members, rest) ← readMembers bound rest
              return (member :: members, rest)
          | '\x7d' :: rest => .error (.at .trailingComma ('\x7d' :: rest))
          | rest => .error (.at .keyNotString rest)
      | rest => .error (.at .expectedObjectSeparator rest)

def readObject (text : List Char) : Except Fault (List (ν × α) × List Char) :=
  match skipSpace text with
  | [] => .error (.before .endInObject [])
  | '\x7d' :: rest => .ok ([], rest)
  | '"' :: rest => do
      let (member, rest) ← readMember readName readItem rest
      let (members, rest) ← readMembers readName readItem (rest.length + 1) rest
      return (member :: members, rest)
  | rest => .error (.at .keyNotString rest)

end Containers

def depthLimit : Nat := 127

/-- A value with space in front of it, of which `room` levels may be containers. -/
def readValue : (room : Nat) → List Char → Except Fault (Json × List Char)
  | room, text =>
      match skipSpace text with
      | [] => .error (.before .endInValue [])
      | 'n' :: rest => readWord Json.null "ull".toList rest
      | 't' :: rest => readWord (Json.bool true) "rue".toList rest
      | 'f' :: rest => readWord (Json.bool false) "alse".toList rest
      | '-' :: rest => Number.readUnsigned true rest
      | '"' :: rest => do
          let (s, rest) ← readString rest
          return (.string s, rest)
      | '[' :: rest =>
          match room with
          | 0 => .error (.at .tooDeep ('[' :: rest))
          | room + 1 => do
              let (items, rest) ← readArray (readValue room) rest
              return (.array items, rest)
      | '\x7b' :: rest =>
          match room with
          | 0 => .error (.at .tooDeep ('\x7b' :: rest))
          | room + 1 => do
              let (members, rest) ← readObject readString (readValue room) rest
              return (.object members, rest)
      | c :: rest =>
          if c.isDigit then Number.readUnsigned false (c :: rest)
          else .error (.at .expectedValue (c :: rest))

def readEnd (text : List Char) : Except Fault Unit :=
  match skipSpace text with
  | [] => .ok ()
  | rest => .error (.at .trailingCharacters rest)

/-- A whole text: one value with nothing but space around it. -/
def readText (text : List Char) : Except Fault Json := do
  let (json, rest) ← readValue depthLimit text
  readEnd rest
  return json

end Reader

def parse (text : String) : Except SyntaxError Json :=
  (Reader.readText text.toList).mapError (.ofFault text.toList)

end WorkflowExpr.Json
