import WorkflowExpr.Expr
import WorkflowExpr.Value.Basic

/-!
Induction over the trees of the library. Each principle asks, for a node with a list of
parts, only that the statement holds of every part in the list, so that a proof has one case
for each constructor.
-/

namespace WorkflowExpr

/-- What holds of the first item and of all later ones holds of every item. -/
private theorem forall_mem_of_cons {α : Type} {p : α → Prop} {first : α} {rest : List α}
    (hfirst : p first) (hrest : ∀ item ∈ rest, p item) : ∀ item ∈ first :: rest, p item := by
  intro item member
  rcases List.mem_cons.mp member with rfl | later
  · exact hfirst
  · exact hrest item later

@[elab_as_elim, induction_eliminator]
theorem Expr.induct {motive : Expr → Prop}
    (null : ∀ span, motive (.null span))
    (bool : ∀ span value, motive (.bool span value))
    (int : ∀ span value, motive (.int span value))
    (float : ∀ span value, motive (.float span value))
    (string : ∀ span value, motive (.string span value))
    (var : ∀ span name, motive (.var span name))
    (property : ∀ span receiver name, motive receiver → motive (.property span receiver name))
    (index : ∀ span operand position, motive operand → motive position →
      motive (.index span operand position))
    (not : ∀ span operand, motive operand → motive (.not span operand))
    (compare : ∀ span op left right, motive left → motive right →
      motive (.compare span op left right))
    (logical : ∀ span op left right, motive left → motive right →
      motive (.logical span op left right))
    (call : ∀ span callee args, (∀ arg ∈ args, motive arg) → motive (.call span callee args))
    (e : Expr) : motive e :=
  @Expr.rec motive (fun args => ∀ arg ∈ args, motive arg) null bool int float string var
    property index not compare logical call (fun _ member => absurd member List.not_mem_nil)
    (fun _ _ hfirst hrest => forall_mem_of_cons hfirst hrest) e

@[elab_as_elim, induction_eliminator]
theorem Value.induct {motive : Value → Prop}
    (null : motive .null)
    (bool : ∀ value, motive (.bool value))
    (number : ∀ value, motive (.number value))
    (string : ∀ value, motive (.string value))
    (array : ∀ identity items, (∀ item ∈ items, motive item) → motive (.array identity items))
    (object : ∀ identity fields, (∀ field ∈ fields, motive field.2) →
      motive (.object identity fields))
    (v : Value) : motive v :=
  @Value.rec motive (fun items => ∀ item ∈ items, motive item)
    (fun fields => ∀ field ∈ fields, motive field.2) (fun field => motive field.2)
    null bool number string array object
    (fun _ member => absurd member List.not_mem_nil)
    (fun _ _ hfirst hrest => forall_mem_of_cons hfirst hrest)
    (fun _ member => absurd member List.not_mem_nil)
    (fun _ _ hfirst hrest => forall_mem_of_cons hfirst hrest)
    (fun _ _ hvalue => hvalue) v

@[elab_as_elim, induction_eliminator]
theorem Json.induct {motive : Json → Prop}
    (null : motive .null)
    (bool : ∀ value, motive (.bool value))
    (int : ∀ value, motive (.int value))
    (float : ∀ value, motive (.float value))
    (string : ∀ value, motive (.string value))
    (array : ∀ items, (∀ item ∈ items, motive item) → motive (.array items))
    (object : ∀ members, (∀ member ∈ members, motive member.2) → motive (.object members))
    (json : Json) : motive json :=
  @Json.rec motive (fun items => ∀ item ∈ items, motive item)
    (fun members => ∀ member ∈ members, motive member.2) (fun member => motive member.2)
    null bool int float string array object
    (fun _ member => absurd member List.not_mem_nil)
    (fun _ _ hfirst hrest => forall_mem_of_cons hfirst hrest)
    (fun _ member => absurd member List.not_mem_nil)
    (fun _ _ hfirst hrest => forall_mem_of_cons hfirst hrest)
    (fun _ _ hvalue => hvalue) json

@[elab_as_elim, induction_eliminator]
theorem Ty.induct {motive : Ty → Prop}
    (any : motive .any)
    (null : motive .null)
    (bool : motive .bool)
    (number : motive .number)
    (string : motive .string)
    (array : ∀ elem, motive elem → motive (.array elem))
    (object : ∀ props mapped, (∀ prop ∈ props, motive prop.2) → motive mapped →
      motive (.object props mapped))
    (ty : Ty) : motive ty :=
  @Ty.rec motive (fun props => ∀ prop ∈ props, motive prop.2) (fun prop => motive prop.2)
    any null bool number string array object
    (fun _ member => absurd member List.not_mem_nil)
    (fun _ _ hfirst hrest => forall_mem_of_cons hfirst hrest)
    (fun _ _ hty => hty) ty

end WorkflowExpr
