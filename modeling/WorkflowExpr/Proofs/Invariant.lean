import WorkflowExpr.Proofs.Calls
import WorkflowExpr.Proofs.Fields
import WorkflowExpr.Proofs.Induction
import WorkflowExpr.Proofs.Steps

/-!
What all values of a run have in common. A result is a value of the context, a part of such a
value, a value without parts, or made from a document, so whatever holds of these and goes
over to parts holds of every result.
-/

namespace WorkflowExpr

open Evaluation

variable {ctx : Context} {start next last : Identity} {P : Identity → Value → Prop}
  {r : TypedValue}

/-- A property of the values in a run that starts from a state. It may depend on the next
unused identity, and what it holds of once it holds of later on. -/
structure Context.Invariant (ctx : Context) (start : Identity) (P : Identity → Value → Prop) :
    Prop where
  later : ∀ {m n : Identity} {v : Value}, m ≤ n → P m v → P n v
  primitive : ∀ {n : Identity} {v : Value}, v.isPrimitive = true → P n v
  item : ∀ {n identity : Identity} {items : List Value} {v : Value},
    P n (.array identity items) → v ∈ items → P n v
  field : ∀ {n identity : Identity} {fields : List (String × Value)} {field : String × Value},
    P n (.object identity fields) → field ∈ fields → P n field.2
  bound : ∀ {n : Identity} {name : String} {v : Value}, ctx.get? name = some v → P n v
  made : ∀ {json : Json} {next last : Identity} {v : Value}, start ≤ next →
    ofFresh (Value.ofJson json) next = .ok (v, last) → next ≤ last ∧ P last v

namespace Context.Invariant

theorem found (h : ctx.Invariant start P) {identity : Identity} {fields : Fields Value}
    {name : String} {found : Value} (hobject : P next (.object identity fields))
    (hget : Fields.get? fields name = some found) : P next found := by
  obtain ⟨field, member, rfl⟩ := Fields.exists_mem_of_get? hget
  exact h.field hobject member

/-- A built-in function gives nothing but what it was given and what it made. -/
theorem body (h : ctx.Invariant start P) {callable : Callable} {args : List TypedValue}
    (member : callable ∈ Builtin.callables)
    (haccepts : callable.arity.accepts args.length = true) (hstart : start ≤ next)
    (hargs : ∀ arg ∈ args, P next arg.value) (hbody : callable.body args next = .ok (r, last)) :
    next ≤ last ∧ P last r.value := by
  rcases Builtin.body_ok_cases member haccepts hbody with
    ⟨v, hv, rfl, rfl⟩ | ⟨-, hhead, rfl⟩ | ⟨-, first, json, v, -, -, hv, rfl⟩
  · exact ⟨Nat.le_refl last, h.primitive hv⟩
  · exact ⟨Nat.le_refl last, hargs r (List.mem_of_head? hhead)⟩
  · exact h.made hstart hv

theorem call (h : ctx.Invariant start P) {name : String} {args : List TypedValue}
    (hstart : start ≤ next) (hargs : ∀ arg ∈ args, P next arg.value)
    (hcall : Builtin.registry.call name args next = .ok (r, last)) :
    next ≤ last ∧ P last r.value := by
  obtain ⟨callable, member, -, haccepts, hbody⟩ := Builtin.exists_body_of_call hcall
  exact h.body member haccepts hstart hargs hbody

/-- What holds of each argument's run holds of the run of all. -/
theorem evalArgs_of_forall (h : ctx.Invariant start P) {args : List Expr}
    {results : List TypedValue}
    (hargs : ∀ arg ∈ args, ∀ {next last : Identity} {r : TypedValue}, start ≤ next →
      arg.eval Builtin.registry ctx next = .ok (r, last) → next ≤ last ∧ P last r.value)
    (hstart : start ≤ next)
    (heval : Expr.evalArgs Builtin.registry ctx args next = .ok (results, last)) :
    next ≤ last ∧ ∀ r ∈ results, P last r.value := by
  induction args generalizing next results with
  | nil =>
      cases heval
      exact ⟨Nat.le_refl _, fun _ hr => absurd hr List.not_mem_nil⟩
  | cons arg args ih =>
      obtain ⟨first, mid, rest, hfirst, hrest, rfl⟩ := Expr.evalArgs_cons_eq_ok.mp heval
      obtain ⟨hle, hvalue⟩ := hargs arg List.mem_cons_self hstart hfirst
      obtain ⟨hlater, hvalues⟩ :=
        ih (fun other member => hargs other (List.mem_cons_of_mem arg member))
          (Nat.le_trans hstart hle) hrest
      exact ⟨Nat.le_trans hle hlater, List.forall_mem_cons.mpr ⟨h.later hlater hvalue, hvalues⟩⟩

/-- An invariant holds of every result, and no run gives an identity back. -/
theorem eval (h : ctx.Invariant start P) {e : Expr} (hstart : start ≤ next)
    (heval : e.eval Builtin.registry ctx next = .ok (r, last)) :
    next ≤ last ∧ P last r.value := by
  induction e generalizing next last r with
  | null | bool | int | float | string =>
      cases heval
      exact ⟨Nat.le_refl _, h.primitive rfl⟩
  | var span name =>
      obtain ⟨v, hv, rfl, rfl⟩ := Eval.variableValue_eq_ok.mp heval
      exact ⟨Nat.le_refl last, h.bound hv⟩
  | property span receiver name ih =>
      simp only [Expr.eval, bind_eq_ok] at heval
      obtain ⟨object, mid, hobject, hproperty⟩ := heval
      obtain ⟨identity, fields, found, hvalue, hget, rfl, rfl⟩ :=
        Eval.propertyValue_eq_ok.mp hproperty
      obtain ⟨hle, hholds⟩ := ih hstart hobject
      rw [hvalue] at hholds
      exact ⟨hle, h.found hholds hget⟩
  | index span operand position ihoperand ihposition =>
      simp only [Expr.eval, bind_eq_ok] at heval
      obtain ⟨array, mid, harray, items, _, hitems, i, final, hi, hat⟩ := heval
      obtain ⟨identity, hvalue, rfl⟩ := Eval.indexable_eq_ok.mp hitems
      obtain ⟨hfound, rfl⟩ := Eval.itemAt_eq_ok.mp hat
      obtain ⟨hle, hholds⟩ := ihoperand hstart harray
      have hlater := (ihposition (Nat.le_trans hstart hle) hi).1
      refine ⟨Nat.le_trans hle hlater, ?_⟩
      rcases hfound with ⟨-, rfl⟩ | ⟨-, -, k, item, -, hitem, rfl⟩
      · exact h.primitive rfl
      · rw [hvalue] at hholds
        exact h.later hlater (h.item hholds (List.mem_of_getElem? hitem))
  | not span operand ih =>
      simp only [Expr.eval, bind_eq_ok] at heval
      obtain ⟨a, mid, ha, hreturn⟩ := heval
      cases hreturn
      exact ⟨(ih hstart ha).1, h.primitive rfl⟩
  | compare span op left right ihleft ihright =>
      simp only [Expr.eval, bind_eq_ok] at heval
      obtain ⟨a, mid, ha, b, final, hb, hreturn⟩ := heval
      cases hreturn
      have hle := (ihleft hstart ha).1
      exact ⟨Nat.le_trans hle (ihright (Nat.le_trans hstart hle) hb).1, h.primitive rfl⟩
  | logical span op left right ihleft ihright =>
      obtain ⟨a, mid, ha, hrest⟩ := Expr.eval_logical_eq_ok.mp heval
      have hle := (ihleft hstart ha).1
      rcases hrest with ⟨answer, -, rfl, rfl⟩ | ⟨-, b, hb, rfl⟩
      · exact ⟨hle, h.primitive rfl⟩
      · exact ⟨Nat.le_trans hle (ihright (Nat.le_trans hstart hle) hb).1, h.primitive rfl⟩
  | call span callee args ih =>
      simp only [Expr.eval, bind_eq_ok] at heval
      obtain ⟨results, mid, hargs, hcall⟩ := heval
      obtain ⟨hle, hholds⟩ := h.evalArgs_of_forall ih hstart hargs
      obtain ⟨hlater, hresult⟩ := h.call (Nat.le_trans hstart hle) hholds hcall
      exact ⟨Nat.le_trans hle hlater, hresult⟩

theorem evalArgs (h : ctx.Invariant start P) {args : List Expr} {results : List TypedValue}
    (hstart : start ≤ next)
    (heval : Expr.evalArgs Builtin.registry ctx args next = .ok (results, last)) :
    next ≤ last ∧ ∀ r ∈ results, P last r.value :=
  h.evalArgs_of_forall (fun _ _ => h.eval) hstart heval

end Context.Invariant

end WorkflowExpr
