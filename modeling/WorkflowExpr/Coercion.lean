import WorkflowExpr.Text.Lower
import WorkflowExpr.TypedValue

/-!
Comparing two results. Before they are compared they are brought to one kind where that is
possible: of two results of different kinds, null and truth values turn into numbers, and a
string that then meets a number is read as one. Containers never change and are equal only to
themselves.
-/

namespace WorkflowExpr

namespace TypedValue

def numeric (r : TypedValue) : TypedValue := ofNumber r.value.toNumber

/-- Null and truth values become numbers, and all else stays. -/
def settle (r : TypedValue) : TypedValue :=
  match r.value with
  | .null | .bool _ => r.numeric
  | _ => r

/-- A string beside a number becomes a number. -/
def meet (left right : TypedValue) : TypedValue × TypedValue :=
  match left.value, right.value with
  | .number _, .string _ => (left, right.numeric)
  | .string _, .number _ => (left.numeric, right)
  | _, _ => (left, right)

/-- Two results brought to one kind as far as possible. -/
def coerce (left right : TypedValue) : TypedValue × TypedValue :=
  if left.value.tag = right.value.tag then (left, right) else meet left.settle right.settle

end TypedValue

namespace Value

/-- Equality of values of one kind; values of different kinds differ. Numbers compare as
numbers, strings ignoring case and containers by identity. -/
def equal : Value → Value → Bool
  | .null, .null => true
  | .bool a, .bool b => a == b
  | .number a, .number b => a.numericEq b
  | .string a, .string b => Text.eqIgnoringCase a b
  | a, b => a.sameIdentity b

/-- The order of two numbers or two strings; no other values have one. -/
def order? : Value → Value → Option Ordering
  | .number a, .number b => a.compare? b
  | .string a, .string b => some (Text.compareIgnoringCase a b)
  | _, _ => none

end Value

namespace TypedValue

def equal (left right : TypedValue) : Bool :=
  let sides := coerce left right
  sides.1.value.equal sides.2.value

def order? (left right : TypedValue) : Option Ordering :=
  let sides := coerce left right
  sides.1.value.order? sides.2.value

def less (left right : TypedValue) : Bool := order? left right == some .lt

def greater (left right : TypedValue) : Bool := order? left right == some .gt

def lessEq (left right : TypedValue) : Bool := equal left right || less left right

def greaterEq (left right : TypedValue) : Bool := equal left right || greater left right

end TypedValue

end WorkflowExpr
