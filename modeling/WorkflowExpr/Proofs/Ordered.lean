import WorkflowExpr.Proofs.Provenance

/-!
The fields of an object ascend by name. Nothing but reading a document makes an object, which
sorts the members, so the order holds of everything that evaluation yields as long as it holds
in the context.
-/

namespace WorkflowExpr

open Evaluation

/-- Values in which the fields of every object ascend by name, as in all values that can be
made. -/
inductive Value.Ordered : Value → Prop where
  | null : Ordered .null
  | bool (b : Bool) : Ordered (.bool b)
  | number (n : Binary64) : Ordered (.number n)
  | string (s : String) : Ordered (.string s)
  | array (identity : Identity) {items : List Value} (hitems : ∀ item ∈ items, Ordered item) :
      Ordered (.array identity items)
  | object (identity : Identity) {fields : List (String × Value)}
      (hascending : Fields.Ascending fields) (hfields : ∀ field ∈ fields, Ordered field.2) :
      Ordered (.object identity fields)

def Context.Ordered (ctx : Context) : Prop := ∀ name v, ctx.get? name = some v → v.Ordered

theorem Context.Ordered.insert {ctx : Context} (h : ctx.Ordered) (name : String) {v : Value}
    (hv : v.Ordered) : (ctx.insert name v).Ordered := by
  intro other found hget
  rw [get?_insert] at hget
  split at hget
  · cases hget
    exact hv
  · exact h other found hget

namespace Value

theorem Ordered.of_isPrimitive {v : Value} (h : v.isPrimitive = true) : v.Ordered := by
  cases v with
  | null => exact .null
  | bool b => exact .bool b
  | number n => exact .number n
  | string s => exact .string s
  | array | object => cases h

theorem Ordered.item {identity : Identity} {items : List Value} {v : Value}
    (h : (Value.array identity items).Ordered) (member : v ∈ items) : v.Ordered := by
  cases h with
  | array _ hitems => exact hitems v member

theorem Ordered.field {identity : Identity} {fields : List (String × Value)}
    {field : String × Value} (h : (Value.object identity fields).Ordered)
    (member : field ∈ fields) : field.2.Ordered := by
  cases h with
  | object _ _ hfields => exact hfields field member

/-- What a document stands for is ordered, whatever order its members have. -/
theorem ofJson_ordered (json : Json) (next : Identity) : ((ofJson json).run next).1.Ordered := by
  induction json generalizing next with
  | null => exact .null
  | bool b => exact .bool b
  | int i => exact .number (.ofInt i)
  | float x => exact .number x
  | string s => exact .string s
  | array items ih =>
      have hitems : ∀ next, ∀ v ∈ ((ofItems items).run next).1, v.Ordered := by
        induction items with
        | nil => exact fun _ _ hv => absurd hv List.not_mem_nil
        | cons item items ihitems =>
            intro next
            rw [List.forall_mem_cons] at ih
            exact List.forall_mem_cons.mpr ⟨ih.1 next, ihitems ih.2 _⟩
      exact .array _ (hitems next)
  | object members ih =>
      have hfields : ∀ next, ∀ f ∈ ((ofMembers members).run next).1, f.2.Ordered := by
        induction members with
        | nil => exact fun _ _ hf => absurd hf List.not_mem_nil
        | cons member members ihmembers =>
            intro next
            rw [List.forall_mem_cons] at ih
            exact List.forall_mem_cons.mpr ⟨ih.1 next, ihmembers ih.2 _⟩
      refine .object _ (Fields.ascending_ofList _) fun field member => ?_
      exact hfields next field (Fields.mem_ofList member)

end Value

theorem Context.Ordered.invariant {ctx : Context} (h : ctx.Ordered) (start : Identity) :
    ctx.Invariant start fun _ v => v.Ordered where
  later _ hv := hv
  primitive := Value.Ordered.of_isPrimitive
  item := Value.Ordered.item
  field := Value.Ordered.field
  bound hget := h _ _ hget
  made := by
    intro json next last v _ hv
    have hrun : (Value.ofJson json).run next = (v, last) := Except.ok.inj hv
    have hordered := Value.ofJson_ordered json next
    rw [hrun] at hordered
    exact ⟨(Value.ofJson_within ctx.held hv).1, hordered⟩

/-- Evaluation in an ordered context yields ordered values. -/
theorem Expr.eval_ordered {ctx : Context} {e : Expr} {r : TypedValue} {next last : Identity}
    (hctx : ctx.Ordered) (h : e.eval Builtin.registry ctx next = .ok (r, last)) :
    r.value.Ordered :=
  ((hctx.invariant next).eval (Nat.le_refl next) h).2

end WorkflowExpr
