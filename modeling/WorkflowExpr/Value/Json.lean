import WorkflowExpr.Json.Writer
import WorkflowExpr.Value.Basic

/-!
Values and JSON. A document becomes a value with new identities throughout; a value becomes a
document, or text directly, with whole numbers up to `2 ^ 53` written as such and numbers that
are not finite written as null.
-/

namespace WorkflowExpr

/-- The largest whole number that is written as one. Up to it every whole number exists. -/
def Binary64.maxWhole : Nat := 1 <<< 53

/-- The whole number that a number is, if it is one and not too large. -/
def Binary64.whole? : Binary64 → Option Int
  | .finite negative m =>
      let n := m.units / Magnitude.unitsPerOne
      if m.units % Magnitude.unitsPerOne = 0 ∧ n ≤ maxWhole then
        some (if negative then -n else n)
      else none
  | _ => none

namespace Value

mutual

def ofJson : Json → Fresh Value
  | .null => return .null
  | .bool b => return .bool b
  | .int i => return .number (.ofInt i)
  | .float x => return .number x
  | .string s => return .string s
  | .array items => do Fresh.array (← ofItems items)
  | .object members => do Fresh.object (← ofMembers members)

def ofItems : List Json → Fresh (List Value)
  | [] => return []
  | item :: items => do return (← ofJson item) :: (← ofItems items)

def ofMembers : List (String × Json) → Fresh (List (String × Value))
  | [] => return []
  | (name, value) :: members => do return (name, ← ofJson value) :: (← ofMembers members)

end

def numberToJson (n : Binary64) : Json :=
  match n.whole? with
  | some i => .int i
  | none =>
      match n with
      | .finite _ _ => .float n
      | _ => .null

mutual

def toJson : Value → Json
  | .null => .null
  | .bool b => .bool b
  | .number n => numberToJson n
  | .string s => .string s
  | .array _ items => .array (itemsToJson items)
  | .object _ fields => .object (fieldsToJson fields)

def itemsToJson : List Value → List Json
  | [] => []
  | item :: items => toJson item :: itemsToJson items

def fieldsToJson : List (String × Value) → List (String × Json)
  | [] => []
  | (name, value) :: fields => (name, toJson value) :: fieldsToJson fields

end

def numberText (n : Binary64) : List Char :=
  match n.whole? with
  | some i => Json.intText i
  | none => Json.floatText n

mutual

/-- The JSON text of a value whose outermost brackets stand at a nesting level. -/
def write (style : Json.Style) (level : Nat) : Value → List Char
  | .null => "null".toList
  | .bool b => Json.boolText b
  | .number n => numberText n
  | .string s => Json.quote s
  | .array _ items => style.enclose level '[' ']' (writeItems style (level + 1) items)
  | .object _ fields => style.enclose level '\x7b' '\x7d' (writeFields style (level + 1) fields)

def writeItems (style : Json.Style) (level : Nat) : List Value → List (List Char)
  | [] => []
  | item :: items => write style level item :: writeItems style level items

def writeFields (style : Json.Style) (level : Nat) : List (String × Value) → List (List Char)
  | [] => []
  | (name, value) :: fields =>
      (Json.quote name ++ style.colon ++ write style level value) :: writeFields style level fields

end

def toJsonText (style : Json.Style) (v : Value) : String := String.ofList (v.write style 0)

end Value

end WorkflowExpr
