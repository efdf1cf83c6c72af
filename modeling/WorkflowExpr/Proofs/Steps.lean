import WorkflowExpr.Eval
import WorkflowExpr.Proofs.Evaluation

/-!
What the parts of evaluation yield: look-ups by name, by property and by position, and the
results of a call's arguments. From them follows what any expression can yield at its root,
which is as far as proofs about all expressions have to look at the single nodes.
-/

namespace WorkflowExpr

namespace Eval

open Evaluation

variable {ctx : Context} {name : String} {v : Value} {items : List Value} {index : Binary64}
  {r : TypedValue} {next last : Identity} {error : EvalError}

theorem variableValue_eq_ok :
    variableValue ctx name next = .ok (r, last) ↔
      ∃ v, ctx.get? name = some v ∧ r = .ofValue v ∧ last = next := by
  unfold variableValue
  cases ctx.get? name <;> simp [eq_comm]

theorem variableValue_eq_error :
    variableValue ctx name next = .error error ↔
      ctx.get? name = none ∧ error = .unknownVariable name := by
  unfold variableValue
  cases ctx.get? name <;> simp [eq_comm]

theorem propertyValue_eq_ok :
    propertyValue v name next = .ok (r, last) ↔
      ∃ identity fields found, v = .object identity fields ∧
        Fields.get? fields name = some found ∧ r = .ofValue found ∧ last = next := by
  cases v with
  | object identity fields =>
      constructor
      · intro h
        cases hget : Fields.get? fields name <;>
          simp only [propertyValue, hget, throw_run, pure_run, reduceCtorEq, Except.ok.injEq,
            Prod.mk.injEq] at h
        exact ⟨identity, fields, _, rfl, hget, h.1.symm, h.2.symm⟩
      · rintro ⟨_, _, found, ⟨rfl, rfl⟩, hget, rfl, rfl⟩
        simp only [propertyValue, hget, pure_run]
  | _ => simp [propertyValue]

theorem propertyValue_eq_error :
    propertyValue v name next = .error error ↔
      (∃ identity fields, v = .object identity fields ∧ Fields.get? fields name = none ∧
        error = .unknownProperty name) ∨
      (v.tag ≠ .object ∧ error = .typeMismatch (.property name v.tag)) := by
  cases v with
  | object identity fields =>
      constructor
      · intro h
        cases hget : Fields.get? fields name <;>
          simp only [propertyValue, hget, throw_run, pure_run, reduceCtorEq,
            Except.error.injEq] at h
        exact .inl ⟨identity, fields, rfl, hget, h.symm⟩
      · rintro (⟨_, _, ⟨rfl, rfl⟩, hget, rfl⟩ | ⟨hno, -⟩)
        · simp only [propertyValue, hget, throw_run]
        · exact absurd rfl hno
  | _ => simp [propertyValue, Value.tag, eq_comm]

theorem indexable_eq_ok :
    indexable v next = .ok (items, last) ↔
      ∃ identity, v = .array identity items ∧ last = next := by
  cases v <;> simp [indexable, eq_comm]

theorem indexable_of_tag (h : v.tag = .array) (next : Identity) :
    ∃ items, indexable v next = .ok (items, next) := by
  cases v with
  | array identity items => exact ⟨items, rfl⟩
  | _ => cases h

theorem indexable_eq_error :
    indexable v next = .error error ↔
      v.tag ≠ .array ∧ error = .typeMismatch (.index v.tag) := by
  cases v <;> simp [indexable, Value.tag, eq_comm]

/-- An item is found, or what is no number finds nothing. -/
theorem itemAt_eq_ok :
    itemAt items index next = .ok (r, last) ↔
      ((index.isNaN = true ∧ r = .unknown) ∨
        (index.isNaN = false ∧ index.isNegative = false ∧
          ∃ i v, index.floorAbs? = some i ∧ items[i]? = some v ∧ r = .ofValue v)) ∧
        last = next := by
  cases hnan : index.isNaN with
  | true => simp [itemAt, hnan, @eq_comm _ r, @eq_comm _ last]
  | false =>
      cases hneg : index.isNegative with
      | true => simp [itemAt, hnan, hneg]
      | false =>
          cases hfloor : index.floorAbs? with
          | none => simp [itemAt, hnan, hneg, hfloor]
          | some i =>
              cases hitem : items[i]? <;> simp [itemAt, hnan, hneg, hfloor, hitem, eq_comm]

/-- A position is refused when it is a number outside the items. -/
theorem itemAt_eq_error :
    itemAt items index next = .error error ↔
      index.isNaN = false ∧
        (index.isNegative = true ∨ index.floorAbs? = none ∨
          ∃ i, index.floorAbs? = some i ∧ items.length ≤ i) ∧
        error = .indexOutOfRange index items.length := by
  cases hnan : index.isNaN with
  | true => simp [itemAt, hnan]
  | false =>
      cases hneg : index.isNegative with
      | true => simp [itemAt, hnan, hneg, eq_comm]
      | false =>
          cases hfloor : index.floorAbs? with
          | none => simp [itemAt, hnan, hneg, hfloor, eq_comm]
          | some i =>
              rcases Nat.lt_or_ge i items.length with hlt | hge
              · have hitem : items[i]? = some items[i] := List.getElem?_eq_getElem hlt
                have hno : ¬ items.length ≤ i := Nat.not_le.mpr hlt
                simp [itemAt, hnan, hneg, hfloor, hitem, hno]
              · simp [itemAt, hnan, hneg, hfloor, hge, eq_comm]

end Eval

namespace Expr

open Eval Evaluation

variable {registry : Registry} {ctx : Context} {e arg : Expr} {args : List Expr}
  {r : TypedValue} {results : List TypedValue} {next last : Identity}

theorem evalArgs_cons_eq_ok :
    evalArgs registry ctx (arg :: args) next = .ok (results, last) ↔
      ∃ r mid rest, arg.eval registry ctx next = .ok (r, mid) ∧
        evalArgs registry ctx args mid = .ok (rest, last) ∧ results = r :: rest := by
  simp only [evalArgs, bind_eq_ok, pure_run, Except.ok.injEq, Prod.mk.injEq]
  constructor
  · rintro ⟨r, mid, hr, rest, final, hrest, rfl, rfl⟩
    exact ⟨r, mid, rest, hr, hrest, rfl⟩
  · rintro ⟨r, mid, rest, hr, hrest, rfl⟩
    exact ⟨r, mid, hr, rest, last, hrest, rfl, rfl⟩

/-- Arguments are evaluated one group after the other. -/
theorem evalArgs_append_bind {α : Type} (before after : List Expr)
    (f : List TypedValue → Evaluation α) :
    (evalArgs registry ctx (before ++ after) >>= f) =
      (evalArgs registry ctx before >>= fun results =>
        evalArgs registry ctx after >>= fun rest => f (results ++ rest)) := by
  induction before generalizing f with
  | nil => simp only [List.nil_append, evalArgs, pure_bind]
  | cons arg before ih => simp only [List.cons_append, evalArgs, bind_assoc, pure_bind, ih]

/-- A logical operator yields the answer that its left side decides, or else whether its right
side is true. -/
theorem eval_logical_eq_ok {span : Span} {op : LogicalOp} {left right : Expr} :
    (Expr.logical span op left right).eval registry ctx next = .ok (r, last) ↔
      ∃ l mid, left.eval registry ctx next = .ok (l, mid) ∧
        ((∃ b, decidedBy? op l = some b ∧ r = .ofBool b ∧ last = mid) ∨
          (decidedBy? op l = none ∧ ∃ s, right.eval registry ctx mid = .ok (s, last) ∧
            r = .ofBool s.truthy)) := by
  rw [eval, bind_eq_ok]
  refine exists_congr fun l => exists_congr fun mid => and_congr_right fun _ => ?_
  cases decidedBy? op l with
  | some b => simp [eq_comm]
  | none =>
      simp only [bind_eq_ok, pure_run, Except.ok.injEq, Prod.mk.injEq, reduceCtorEq, false_and,
        exists_false, true_and, false_or]
      constructor
      · rintro ⟨s, final, hs, rfl, rfl⟩
        exact ⟨s, hs, rfl⟩
      · rintro ⟨s, hs, rfl⟩
        exact ⟨s, last, hs, rfl, rfl⟩

/-- Every result of a call's arguments is the result of one of them. -/
theorem mem_of_evalArgs (h : evalArgs registry ctx args next = .ok (results, last)) :
    ∀ r ∈ results, ∃ arg ∈ args, ∃ before after,
      arg.eval registry ctx before = .ok (r, after) := by
  induction args generalizing next results with
  | nil =>
      cases h
      intro r member
      cases member
  | cons arg args ih =>
      obtain ⟨first, mid, rest, hfirst, hrest, rfl⟩ := evalArgs_cons_eq_ok.mp h
      intro r member
      rcases List.mem_cons.mp member with rfl | later
      · exact ⟨arg, List.mem_cons_self, next, mid, hfirst⟩
      · obtain ⟨other, hother, found⟩ := ih hrest r later
        exact ⟨other, List.mem_cons_of_mem arg hother, found⟩

/-- What any expression can yield: a value with the type of its kind, or null of unknown type
at an index, or what a function answers. -/
theorem eval_ok_cases (h : e.eval registry ctx next = .ok (r, last)) :
    (∃ v, r = .ofValue v) ∨
    (r = .unknown ∧ ∃ span operand position, e = .index span operand position) ∨
    ∃ span callee args results mid, e = .call span callee args ∧
      evalArgs registry ctx args next = .ok (results, mid) ∧
      registry.call callee.name results mid = .ok (r, last) := by
  cases e with
  | null | bool | int | float | string =>
      simp only [eval, pure_run, Except.ok.injEq, Prod.mk.injEq] at h
      exact .inl ⟨_, h.1.symm⟩
  | var span name =>
      obtain ⟨v, -, rfl, -⟩ := variableValue_eq_ok.mp h
      exact .inl ⟨v, rfl⟩
  | property span receiver name =>
      simp only [eval, bind_eq_ok] at h
      obtain ⟨object, mid, -, h⟩ := h
      obtain ⟨-, -, found, -, -, rfl, -⟩ := propertyValue_eq_ok.mp h
      exact .inl ⟨found, rfl⟩
  | index span operand position =>
      simp only [eval, bind_eq_ok] at h
      obtain ⟨array, _, -, items, _, -, i, _, -, h⟩ := h
      rcases (itemAt_eq_ok.mp h).1 with ⟨-, rfl⟩ | ⟨-, -, -, v, -, -, rfl⟩
      · exact .inr (.inl ⟨rfl, span, operand, position, rfl⟩)
      · exact .inl ⟨v, rfl⟩
  | not span operand =>
      simp only [eval, bind_eq_ok, pure_run, Except.ok.injEq, Prod.mk.injEq] at h
      obtain ⟨_, _, -, rfl, -⟩ := h
      exact .inl ⟨_, rfl⟩
  | compare span op left right =>
      simp only [eval, bind_eq_ok, pure_run, Except.ok.injEq, Prod.mk.injEq] at h
      obtain ⟨_, _, -, _, _, -, rfl, -⟩ := h
      exact .inl ⟨_, rfl⟩
  | logical span op left right =>
      obtain ⟨l, mid, -, ⟨b, -, rfl, -⟩ | ⟨-, s, -, rfl⟩⟩ := eval_logical_eq_ok.mp h
      · exact .inl ⟨_, rfl⟩
      · exact .inl ⟨_, rfl⟩
  | call span callee args =>
      simp only [eval, bind_eq_ok] at h
      obtain ⟨results, mid, hargs, hcall⟩ := h
      exact .inr (.inr ⟨span, callee, args, results, mid, rfl, hargs, hcall⟩)

end Expr

end WorkflowExpr
