import WorkflowExpr.Value.Json

/-!
The names that an expression can use without a receiver, and what they stand for. Evaluation
only reads a context, and the values in it keep their identities.
-/

namespace WorkflowExpr

structure Context where
  bindings : Fields Value

namespace Context

def empty : Context := ⟨[]⟩

/-- The bindings of a list, the later ones in place of earlier ones. -/
def ofList (bindings : List (String × Value)) : Context := ⟨Fields.ofList bindings⟩

def insert (ctx : Context) (name : String) (value : Value) : Context :=
  ⟨Fields.insert name value ctx.bindings⟩

def get? (ctx : Context) (name : String) : Option Value := ctx.bindings.get? name

def contains (ctx : Context) (name : String) : Bool := (ctx.get? name).isSome

def names (ctx : Context) : List String := ctx.bindings.names

def sameContents (a b : Context) : Bool := Value.sameFields a.bindings b.bindings

/-- The context that the members of a JSON object make; there is none for another document. -/
def ofJson? (json : Json) : Fresh (Option Context) := do
  match ← Value.ofJson json with
  | .object _ fields => return some ⟨fields⟩
  | _ => return none

@[simp] theorem get?_insert (ctx : Context) (name other : String) (value : Value) :
    (ctx.insert name value).get? other = if other = name then some value else ctx.get? other :=
  Fields.get?_insert ctx.bindings name other value

end Context

end WorkflowExpr
