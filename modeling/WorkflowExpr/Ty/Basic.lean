import WorkflowExpr.Fields
import WorkflowExpr.Tag

/-!
Descriptive types of values. A type says what an array holds and which properties an object
has, as far as that is known. Types have decidable equality and a display text.
-/

namespace WorkflowExpr

inductive Ty where
  | any
  | null
  | bool
  | number
  | string
  | array (elem : Ty)
  /-- Known properties, and the type of any other one. -/
  | object (props : List (String × Ty)) (mapped : Ty)
deriving Repr

namespace Ty

def anyArray : Ty := .array .any

def anyObject : Ty := .object [] .any

def tag : Ty → Tag
  | .any => .any
  | .null => .null
  | .bool => .bool
  | .number => .number
  | .string => .string
  | .array _ => .array
  | .object _ _ => .object

def isPrimitive (ty : Ty) : Bool := ty.tag.isPrimitive

mutual

def same : Ty → Ty → Bool
  | .array a, .array b => same a b
  | .object ps a, .object qs b => sameProps ps qs && same a b
  | .array _, _ | .object _ _, _ => false
  | a, b => a.tag == b.tag

def sameProps : List (String × Ty) → List (String × Ty) → Bool
  | [], [] => true
  | (m, a) :: ps, (n, b) :: qs => m == n && same a b && sameProps ps qs
  | _, _ => false

end

mutual

theorem eq_of_same : ∀ {a b : Ty}, same a b = true → a = b
  | .array _, b, h => by
      cases b <;> simp only [same, Bool.false_eq_true] at h
      rw [eq_of_same h]
  | .object _ _, b, h => by
      cases b <;> simp only [same, Bool.false_eq_true, Bool.and_eq_true] at h
      rw [eq_of_sameProps h.1, eq_of_same h.2]
  | .any, b, h | .null, b, h | .bool, b, h | .number, b, h | .string, b, h => by
      cases b <;> simp [same, tag] at h ⊢

theorem eq_of_sameProps :
    ∀ {ps qs : List (String × Ty)}, sameProps ps qs = true → ps = qs
  | [], [], _ => rfl
  | [], _ :: _, h | _ :: _, [], h => by simp [sameProps] at h
  | (m, a) :: ps, (n, b) :: qs, h => by
      simp only [sameProps, Bool.and_eq_true, beq_iff_eq] at h
      rw [h.1.1, eq_of_same h.1.2, eq_of_sameProps h.2]

end

mutual

theorem same_self : ∀ a : Ty, same a a = true
  | .array a => by simp only [same, same_self a]
  | .object ps a => by simp only [same, sameProps_self ps, same_self a, Bool.and_self]
  | .any | .null | .bool | .number | .string => rfl

theorem sameProps_self : ∀ ps : List (String × Ty), sameProps ps ps = true
  | [] => rfl
  | (n, a) :: ps => by
      simp only [sameProps, beq_self_eq_true, same_self a, sameProps_self ps, Bool.and_self]

end

instance : DecidableEq Ty := fun a b =>
  decidable_of_iff (same a b = true) ⟨eq_of_same, fun h => h ▸ same_self a⟩

mutual

/-- The display text of a type. An object shows its known properties, or else the type of
all its properties when one is known. -/
def display : Ty → String
  | .array elem => "array<" ++ display elem ++ ">"
  | .object [] .any => "object"
  | .object [] mapped => "\x7bstring => " ++ display mapped ++ "\x7d"
  | .object props _ => "\x7b" ++ ", ".intercalate (displayProps props) ++ "\x7d"
  | ty => ty.tag.name

def displayProps : List (String × Ty) → List String
  | [] => []
  | (name, ty) :: props => (name ++ ": " ++ display ty) :: displayProps props

end

end Ty

end WorkflowExpr
