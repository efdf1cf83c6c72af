import WorkflowExpr.Builtin
import WorkflowExpr.Context
import WorkflowExpr.Expr

/-!
Evaluating an expression in a context, with the functions of a registry. Parts are evaluated
from left to right and the first error ends the evaluation; the right side of a logical
operator is evaluated only when the left side does not decide it.
-/

namespace WorkflowExpr

namespace Eval

def variableValue (ctx : Context) (name : String) : Evaluation TypedValue :=
  match ctx.get? name with
  | some v => return .ofValue v
  | none => throw (.unknownVariable name)

def propertyValue (receiver : Value) (name : String) : Evaluation TypedValue :=
  match receiver with
  | .object _ fields =>
      match Fields.get? fields name with
      | some v => return .ofValue v
      | none => throw (.unknownProperty name)
  | other => throw (.typeMismatch (.property name other.tag))

def indexable (operand : Value) : Evaluation (List Value) :=
  match operand with
  | .array _ items => return items
  | other => throw (.typeMismatch (.index other.tag))

/-- The item at a position, which is rounded down to a whole number. What is no number finds
nothing; a number before the first item or after the last is an error. -/
def itemAt (items : List Value) (index : Binary64) : Evaluation TypedValue :=
  if index.isNaN then return .unknown
  else if index.isNegative then throw (.indexOutOfRange index items.length)
  else
    match index.floorAbs?.bind (items[·]?) with
    | some v => return .ofValue v
    | none => throw (.indexOutOfRange index items.length)

def compareBy : CompareOp → TypedValue → TypedValue → Bool
  | .eq, left, right => left.equal right
  | .notEq, left, right => !left.equal right
  | .less, left, right => left.less right
  | .lessEq, left, right => left.lessEq right
  | .greater, left, right => left.greater right
  | .greaterEq, left, right => left.greaterEq right

/-- The answer of a logical operator when its left side alone decides it. -/
def decidedBy? : LogicalOp → TypedValue → Option Bool
  | .and, left => if left.falsy then some false else none
  | .or, left => if left.truthy then some true else none

end Eval

open Eval

mutual

def Expr.eval (registry : Registry) (ctx : Context) : Expr → Evaluation TypedValue
  | .null _ => return .ofValue .null
  | .bool _ value => return .ofBool value
  | .int _ value => return .ofNumber (.ofInt value.toInt)
  | .float _ value => return .ofNumber value
  | .string _ value => return .ofString value
  | .var _ name => variableValue ctx name
  | .property _ receiver name => do
      let r ← Expr.eval registry ctx receiver
      propertyValue r.value name.name
  | .index _ operand position => do
      let r ← Expr.eval registry ctx operand
      let items ← indexable r.value
      let i ← Expr.eval registry ctx position
      itemAt items i.value.toNumber
  | .not _ operand => do
      let r ← Expr.eval registry ctx operand
      return .ofBool r.falsy
  | .compare _ op left right => do
      let l ← Expr.eval registry ctx left
      let r ← Expr.eval registry ctx right
      return .ofBool (compareBy op l r)
  | .logical _ op left right => do
      let l ← Expr.eval registry ctx left
      match decidedBy? op l with
      | some b => return .ofBool b
      | none =>
          let r ← Expr.eval registry ctx right
          return .ofBool r.truthy
  | .call _ callee args => do
      let results ← Expr.evalArgs registry ctx args
      registry.call callee.name results

/-- The values of a call's arguments, from left to right. -/
def Expr.evalArgs (registry : Registry) (ctx : Context) :
    List Expr → Evaluation (List TypedValue)
  | [] => return []
  | arg :: args => do
      let r ← Expr.eval registry ctx arg
      let results ← Expr.evalArgs registry ctx args
      return r :: results

end

end WorkflowExpr
