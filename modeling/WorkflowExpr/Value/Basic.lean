import WorkflowExpr.Binary64.Basic
import WorkflowExpr.Ty.Basic

/-!
Run-time values. Every array and object carries an identity: copies of a value share it, and
a container made anew has one of its own. Expressions compare containers by identity;
structural equality looks at the contents alone.
-/

namespace WorkflowExpr

/-- What tells one container from another with the same contents. -/
abbrev Identity := Nat

/-- A value. The fields of an object ascend by name. -/
inductive Value where
  | null
  | bool (value : Bool)
  | number (value : Binary64)
  | string (value : String)
  | array (identity : Identity) (items : List Value)
  | object (identity : Identity) (fields : List (String × Value))
deriving Inhabited

/-- Computations that make containers. The state is the next identity not yet in use. -/
abbrev Fresh := StateM Identity

namespace Fresh

def identity : Fresh Identity := modifyGet fun next => (next, next + 1)

def array (items : List Value) : Fresh Value := return .array (← identity) items

/-- A new object. Of two fields with one name the later stays. -/
def object (fields : List (String × Value)) : Fresh Value :=
  return .object (← identity) (Fields.ofList fields)

end Fresh

namespace Value

def tag : Value → Tag
  | .null => .null
  | .bool _ => .bool
  | .number _ => .number
  | .string _ => .string
  | .array _ _ => .array
  | .object _ _ => .object

/-- The type of a value as far as its kind alone tells. -/
def classify : Value → Ty
  | .null => .null
  | .bool _ => .bool
  | .number _ => .number
  | .string _ => .string
  | .array _ _ => .anyArray
  | .object _ _ => .anyObject

@[simp] theorem tag_classify (v : Value) : v.classify.tag = v.tag := by
  cases v <;> rfl

def typeName (v : Value) : String := v.tag.name

def isPrimitive (v : Value) : Bool := v.tag.isPrimitive

def sameIdentity : Value → Value → Bool
  | .array a _, .array b _ | .object a _, .object b _ => a == b
  | _, _ => false

def string? : Value → Option String
  | .string s => some s
  | _ => none

def number? : Value → Option Binary64
  | .number n => some n
  | _ => none

def items? : Value → Option (List Value)
  | .array _ items => some items
  | _ => none

def fields? : Value → Option (Fields Value)
  | .object _ fields => some fields
  | _ => none

mutual

/-- Whether two values have the same contents. Numbers are compared as numbers, so that
not-a-number differs from itself. -/
def sameContents : Value → Value → Bool
  | .null, .null => true
  | .bool a, .bool b => a == b
  | .number a, .number b => a.numericEq b
  | .string a, .string b => a == b
  | .array _ as, .array _ bs => sameItems as bs
  | .object _ as, .object _ bs => sameFields as bs
  | _, _ => false

def sameItems : List Value → List Value → Bool
  | [], [] => true
  | a :: as, b :: bs => sameContents a b && sameItems as bs
  | _, _ => false

def sameFields : List (String × Value) → List (String × Value) → Bool
  | [], [] => true
  | (m, a) :: as, (n, b) :: bs => m == n && sameContents a b && sameFields as bs
  | _, _ => false

end

end Value

end WorkflowExpr
