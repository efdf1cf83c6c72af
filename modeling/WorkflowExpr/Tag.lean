/-!
The kinds of values, and the extra kind of a value about which nothing is known.
-/

namespace WorkflowExpr

/-- The bare kind of a type. -/
inductive Tag where
  | any
  | null
  | bool
  | number
  | string
  | array
  | object
deriving DecidableEq, Repr

namespace Tag

/-- The name of a kind, in messages and in serialized types. -/
def name : Tag → String
  | .any => "any"
  | .null => "null"
  | .bool => "bool"
  | .number => "number"
  | .string => "string"
  | .array => "array"
  | .object => "object"

/-- All kinds, each at the place that is its number. -/
def all : List Tag := [.any, .null, .bool, .number, .string, .array, .object]

def ofName? (name : String) : Option Tag := all.find? fun tag => tag.name == name

def ofNumber? (number : Nat) : Option Tag := all[number]?

@[simp] theorem ofName?_name (tag : Tag) : ofName? tag.name = some tag := by
  cases tag <;> rfl

/-- Whether the values of a kind have no parts. -/
def isPrimitive : Tag → Bool
  | .null | .bool | .number | .string => true
  | .any | .array | .object => false

end Tag

end WorkflowExpr
