import WorkflowExpr.EvalError
import WorkflowExpr.Numeral.Read
import WorkflowExpr.Value.Basic

/-!
A value together with a type, which is what evaluating an expression yields. The type is that
of the value's kind, or the unknown one, or a more precise one of the same kind. This module
also says how a value is used as a truth value, as a number and as a string.
-/

namespace WorkflowExpr

namespace Value

/-- Null, false, zero, not-a-number and the empty string count as false; containers never
do. -/
def falsy : Value → Bool
  | .null => true
  | .bool b => !b
  | .number n => n.isZero || n.isNaN
  | .string s => s == ""
  | .array _ _ | .object _ _ => false

/-- Every value as a number. A string is read, and a container is no number. -/
def toNumber : Value → Binary64
  | .null => .zero
  | .bool b => if b then .ofNat 1 else .zero
  | .number n => n
  | .string s => Numeral.read s
  | .array _ _ | .object _ _ => .nan

end Value

structure TypedValue where
  value : Value
  ty : Ty

namespace TypedValue

/-- Whether the type says nothing false about the value's kind. -/
def Consistent (r : TypedValue) : Prop := r.ty.tag = .any ∨ r.ty.tag = r.value.tag

instance (r : TypedValue) : Decidable r.Consistent := inferInstanceAs (Decidable (_ ∨ _))

def ofValue (v : Value) : TypedValue := ⟨v, v.classify⟩

/-- Null of unknown type, for a look-up that found nothing usable. -/
def unknown : TypedValue := ⟨.null, .any⟩

def ofBool (b : Bool) : TypedValue := ofValue (.bool b)

def ofNumber (n : Binary64) : TypedValue := ofValue (.number n)

def ofString (s : String) : TypedValue := ofValue (.string s)

/-- A value with a type of the caller's, which has to be consistent. -/
def annotate (v : Value) (ty : Ty) : Except EvalError TypedValue :=
  if Consistent ⟨v, ty⟩ then .ok ⟨v, ty⟩ else .error (.internal (.typeTag ty v.tag))

theorem consistent_ofValue (v : Value) : (ofValue v).Consistent := .inr (Value.tag_classify v)

theorem consistent_unknown : unknown.Consistent := .inl rfl

def falsy (r : TypedValue) : Bool := r.value.falsy

def truthy (r : TypedValue) : Bool := !r.falsy

/-- The string form of a result. A container shows its type, one of unknown type the type of
its kind. -/
def toText (r : TypedValue) : String :=
  match r.value with
  | .null => ""
  | .bool b => if b then "true" else "false"
  | .number n => Numeral.write n
  | .string s => s
  | .array _ _ | .object _ _ => if r.ty = .any then r.value.classify.display else r.ty.display

end TypedValue

end WorkflowExpr
