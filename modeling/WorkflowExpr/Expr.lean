import WorkflowExpr.Binary64.Basic
import WorkflowExpr.Span.Basic

/-!
Expression trees. Every node carries the span it was read from, as does every name of a
property or a function.
-/

namespace WorkflowExpr

/-- The name of a property or a function and where it stands. -/
structure Ident where
  name : String
  span : Span
deriving DecidableEq, Repr

inductive CompareOp where
  | eq
  | notEq
  | less
  | lessEq
  | greater
  | greaterEq
deriving DecidableEq, Repr

def CompareOp.symbol : CompareOp → String
  | .eq => "=="
  | .notEq => "!="
  | .less => "<"
  | .lessEq => "<="
  | .greater => ">"
  | .greaterEq => ">="

inductive LogicalOp where
  | and
  | or
deriving DecidableEq, Repr

def LogicalOp.symbol : LogicalOp → String
  | .and => "&&"
  | .or => "||"

inductive Expr where
  | null (span : Span)
  | bool (span : Span) (value : Bool)
  | int (span : Span) (value : Int64)
  | float (span : Span) (value : Binary64)
  | string (span : Span) (value : String)
  | var (span : Span) (name : String)
  | property (span : Span) (receiver : Expr) (name : Ident)
  | index (span : Span) (operand position : Expr)
  | not (span : Span) (operand : Expr)
  | compare (span : Span) (op : CompareOp) (left right : Expr)
  | logical (span : Span) (op : LogicalOp) (left right : Expr)
  | call (span : Span) (callee : Ident) (args : List Expr)
deriving Inhabited

namespace Expr

def span : Expr → Span
  | .null span | .bool span _ | .int span _ | .float span _ | .string span _ | .var span _
  | .property span _ _ | .index span _ _ | .not span _ | .compare span _ _ _
  | .logical span _ _ _ | .call span _ _ => span

/-- The same expression at another place. The places of its parts stay. -/
def withSpan (span : Span) : Expr → Expr
  | .null _ => .null span
  | .bool _ value => .bool span value
  | .int _ value => .int span value
  | .float _ value => .float span value
  | .string _ value => .string span value
  | .var _ name => .var span name
  | .property _ receiver name => .property span receiver name
  | .index _ operand position => .index span operand position
  | .not _ operand => .not span operand
  | .compare _ op left right => .compare span op left right
  | .logical _ op left right => .logical span op left right
  | .call _ callee args => .call span callee args

@[simp] theorem span_withSpan (span : Span) (e : Expr) : (e.withSpan span).span = span := by
  cases e <;> rfl

mutual

/-- Whether two expressions are the same, places included. Numbers are compared as numbers,
so that not-a-number differs from itself. -/
def same : Expr → Expr → Bool
  | .null s, .null t => s == t
  | .bool s a, .bool t b => s == t && a == b
  | .int s a, .int t b => s == t && a == b
  | .float s a, .float t b => s == t && a.numericEq b
  | .string s a, .string t b => s == t && a == b
  | .var s a, .var t b => s == t && a == b
  | .property s a m, .property t b n => s == t && same a b && m == n
  | .index s a i, .index t b j => s == t && same a b && same i j
  | .not s a, .not t b => s == t && same a b
  | .compare s p a b, .compare t q c d => s == t && p == q && same a c && same b d
  | .logical s p a b, .logical t q c d => s == t && p == q && same a c && same b d
  | .call s f as, .call t g bs => s == t && f == g && sameArgs as bs
  | _, _ => false

def sameArgs : List Expr → List Expr → Bool
  | [], [] => true
  | a :: as, b :: bs => same a b && sameArgs as bs
  | _, _ => false

end

end Expr

end WorkflowExpr
