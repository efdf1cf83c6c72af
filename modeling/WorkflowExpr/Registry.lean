import WorkflowExpr.EvalError
import WorkflowExpr.Text.Lower
import WorkflowExpr.TypedValue

/-!
Functions that expressions can call, found by name without regard to case. A call looks the
function up, then checks the number of arguments, and only then runs it.
-/

namespace WorkflowExpr

/-- Computations that can fail and can make containers. -/
abbrev Evaluation := StateT Identity (Except EvalError)

/-- Making containers never fails. -/
def Evaluation.ofFresh {α : Type} (fresh : Fresh α) : Evaluation α := fun next =>
  .ok (fresh.run next)

structure Callable where
  name : String
  arity : Arity
  body : List TypedValue → Evaluation TypedValue

/-- The functions that can be called, by the lower-case form of their names. -/
structure Registry where
  entries : Fields Callable

namespace Registry

def empty : Registry := ⟨[]⟩

/-- Adds a function, in place of one whose name differs only in case. -/
def register (registry : Registry) (callable : Callable) : Registry :=
  ⟨registry.entries.insert (Text.lowercase callable.name) callable⟩

/-- The functions of a list, the later ones in place of earlier ones. -/
def ofList (callables : List Callable) : Registry := callables.foldl register empty

def get? (registry : Registry) (name : String) : Option Callable :=
  registry.entries.get? (Text.lowercase name)

def contains (registry : Registry) (name : String) : Bool := (registry.get? name).isSome

def size (registry : Registry) : Nat := registry.entries.length

def isEmpty (registry : Registry) : Bool := registry.entries.isEmpty

/-- Calls the function of a name. Errors give the name as the caller spelled it. -/
def call (registry : Registry) (name : String) (args : List TypedValue) :
    Evaluation TypedValue :=
  match registry.get? name with
  | none => throw (.unknownFunction name)
  | some callable =>
      if callable.arity.accepts args.length then callable.body args
      else throw (.arityMismatch name callable.arity args.length)

/-- The last function registered under a name, in any case, is the one found. -/
theorem get?_register (registry : Registry) (callable : Callable) (name : String) :
    (registry.register callable).get? name =
      if Text.lowercase name = Text.lowercase callable.name then some callable
      else registry.get? name :=
  Fields.get?_insert registry.entries _ _ callable

end Registry

end WorkflowExpr
