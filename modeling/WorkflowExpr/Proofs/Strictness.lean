import WorkflowExpr.Proofs.Frame

/-!
Which places of an expression matter. What stands at a place that evaluation comes to is
evaluated there, and if it fails then so does the whole expression, with the same error. What
stands at any other place is never looked at, so that anything can be put there instead.
-/

namespace WorkflowExpr

open Eval Evaluation

variable {registry : Registry} {ctx : Context} {part part' : Expr} {frame : Frame}
  {frames : List Frame} {next now : Identity} {error : EvalError}

namespace Frame

/-- A node fails when evaluation comes to one of its parts and the part fails. -/
theorem Enters.plug_eq_error (henter : frame.Enters registry ctx next now)
    (hpart : part.eval registry ctx now = .error error) :
    (frame.plug part).eval registry ctx next = .error error := by
  cases henter with
  | property span name =>
      rw [plug, Expr.eval]
      exact bind_of_error hpart
  | indexOperand span position =>
      rw [plug, Expr.eval]
      exact bind_of_error hpart
  | indexPosition span hoperand harray =>
      obtain ⟨items, hitems⟩ := indexable_of_tag harray now
      rw [plug, Expr.eval, bind_of_ok hoperand, bind_of_ok hitems]
      exact bind_of_error hpart
  | not span =>
      rw [plug, Expr.eval]
      exact bind_of_error hpart
  | compareLeft span op right =>
      rw [plug, Expr.eval]
      exact bind_of_error hpart
  | compareRight span op hleft =>
      rw [plug, Expr.eval, bind_of_ok hleft]
      exact bind_of_error hpart
  | logicalLeft span op right =>
      rw [plug, Expr.eval]
      exact bind_of_error hpart
  | logicalRight span hleft hopen =>
      rw [plug, Expr.eval, bind_of_ok hleft, decidedBy?_eq_none.mpr hopen]
      exact bind_of_error hpart
  | argument span callee after hbefore =>
      obtain ⟨results, hresults⟩ := Expr.succeed_iff.mp hbefore
      rw [plug, Expr.eval, Expr.evalArgs_append_bind, bind_of_ok hresults]
      exact bind_of_error (bind_of_error hpart)

/-- A node depends on one of its parts only through what the part does when evaluation comes
to it. -/
theorem plug_congr
    (hpart : ∀ now, frame.Enters registry ctx next now →
      part.eval registry ctx now = part'.eval registry ctx now) :
    (frame.plug part).eval registry ctx next = (frame.plug part').eval registry ctx next := by
  cases frame with
  | property span name =>
      rw [plug, plug, Expr.eval, Expr.eval]
      exact bind_congr_left (hpart next (.property span name))
  | indexOperand span position =>
      rw [plug, plug, Expr.eval, Expr.eval]
      exact bind_congr_left (hpart next (.indexOperand span position))
  | indexPosition span operand =>
      rw [plug, plug, Expr.eval, Expr.eval]
      apply bind_congr_right
      intro r mid hoperand
      apply bind_congr_right
      intro items now hitems
      obtain ⟨identity, hvalue, rfl⟩ := indexable_eq_ok.mp hitems
      have harray : r.value.tag = .array := by rw [hvalue, Value.tag]
      exact bind_congr_left (hpart _ (.indexPosition span hoperand harray))
  | not span =>
      rw [plug, plug, Expr.eval, Expr.eval]
      exact bind_congr_left (hpart next (.not span))
  | compareLeft span op right =>
      rw [plug, plug, Expr.eval, Expr.eval]
      exact bind_congr_left (hpart next (.compareLeft span op right))
  | compareRight span op left =>
      rw [plug, plug, Expr.eval, Expr.eval]
      apply bind_congr_right
      intro l now hleft
      exact bind_congr_left (hpart now (.compareRight span op hleft))
  | logicalLeft span op right =>
      rw [plug, plug, Expr.eval, Expr.eval]
      exact bind_congr_left (hpart next (.logicalLeft span op right))
  | logicalRight span op left =>
      rw [plug, plug, Expr.eval, Expr.eval]
      apply bind_congr_right
      intro l now hleft
      cases hdecided : decidedBy? op l with
      | some b => rfl
      | none =>
          have hopen := decidedBy?_eq_none.mp hdecided
          exact bind_congr_left (hpart now (.logicalRight span hleft hopen))
  | argument span callee before after =>
      rw [plug, plug, Expr.eval, Expr.eval, Expr.evalArgs_append_bind,
        Expr.evalArgs_append_bind]
      apply bind_congr_right
      intro results now hresults
      have hbefore := Expr.succeed_iff.mpr ⟨results, hresults⟩
      apply bind_congr_left
      exact bind_congr_left (hpart now (.argument span callee after hbefore))

/-- The error of a part that evaluation comes to is the error of the whole. -/
theorem Reached.fill_eq_error (hreached : Reached registry ctx frames next now)
    (hpart : part.eval registry ctx now = .error error) :
    (fill frames part).eval registry ctx next = .error error := by
  induction hreached with
  | here next => exact hpart
  | inside henter _ ih => exact henter.plug_eq_error (ih hpart)

/-- Two parts that do the same wherever evaluation comes to them can stand for each other. -/
theorem fill_congr
    (hpart : ∀ now, Reached registry ctx frames next now →
      part.eval registry ctx now = part'.eval registry ctx now) :
    (fill frames part).eval registry ctx next = (fill frames part').eval registry ctx next := by
  induction frames generalizing next with
  | nil => exact hpart next (.here next)
  | cons frame frames ih =>
      rw [fill_cons, fill_cons]
      apply plug_congr
      intro mid henter
      apply ih
      intro now hinside
      exact hpart now (.inside henter hinside)

end Frame

/-- Evaluation is strict in the places that it comes to and does not depend on what stands in
any other place, for every expression, context and registry. -/
theorem Expr.eval_strict_lazy (registry : Registry) (ctx : Context) (frames : List Frame)
    (next : Identity) :
    (∀ part now error, Frame.Reached registry ctx frames next now →
      part.eval registry ctx now = .error error →
        (Frame.fill frames part).eval registry ctx next = .error error) ∧
    ((¬ ∃ now, Frame.Reached registry ctx frames next now) → ∀ part part',
      (Frame.fill frames part).eval registry ctx next =
        (Frame.fill frames part').eval registry ctx next) := by
  constructor
  · intro part now error hreached hpart
    exact hreached.fill_eq_error hpart
  · intro hunreached part part'
    apply Frame.fill_congr
    intro now hreached
    exact absurd ⟨now, hreached⟩ hunreached

/-- The place in `!(text && _)` or in `!(text || _)`. -/
def besideText (op : LogicalOp) (text : String) : List Frame :=
  [.not .nowhere, .logicalRight .nowhere op (.string .nowhere text)]

/-- Evaluation comes to the place beside a text that is true under `&&` or false under `||`. -/
theorem reached_besideText {op : LogicalOp} {text : String} :
    Frame.Reached registry ctx (besideText op text) next now ↔
      (TypedValue.ofString text).truthy = (op == .and) ∧ now = next := by
  constructor
  · rintro (_ | ⟨henter, hinside⟩)
    cases henter
    rcases hinside with _ | ⟨henter, hinside⟩
    cases hinside
    cases henter with
    | logicalRight _ hleft hopen =>
        cases hleft
        exact ⟨hopen, rfl⟩
  · rintro ⟨hopen, rfl⟩
    exact .inside (.not .nowhere) (.inside (.logicalRight .nowhere rfl hopen) (.here now))

/-- The right side of `&&` matters beside a text that is not empty and not beside the empty one,
and with `||` it is the other way round. -/
theorem Expr.eval_strict_lazy_beside_text :
    let x : Expr := .var .nowhere "x"
    let run := fun op text part =>
      (Frame.fill (besideText op text) part).eval Builtin.registry .empty 0
    x.eval Builtin.registry .empty 0 = .error (.unknownVariable "x") ∧
    (Frame.Reached Builtin.registry .empty (besideText .and "a") 0 0 ∧
      run .and "a" x = .error (.unknownVariable "x")) ∧
    ((¬ ∃ now, Frame.Reached Builtin.registry .empty (besideText .and "") 0 now) ∧
      run .and "" x = run .and "" (.null .nowhere)) ∧
    (Frame.Reached Builtin.registry .empty (besideText .or "") 0 0 ∧
      run .or "" x = .error (.unknownVariable "x")) ∧
    ((¬ ∃ now, Frame.Reached Builtin.registry .empty (besideText .or "a") 0 now) ∧
      run .or "a" x = run .or "a" (.null .nowhere)) := by
  intro x run
  have hx : x.eval Builtin.registry .empty 0 = .error (.unknownVariable "x") := rfl
  have hstrict : ∀ op text,
      Frame.Reached Builtin.registry .empty (besideText op text) 0 0 →
        run op text x = .error (.unknownVariable "x") := fun op text hreached =>
    (eval_strict_lazy Builtin.registry .empty (besideText op text) 0).1 x 0 _ hreached hx
  have hlazy : ∀ op text,
      (¬ ∃ now, Frame.Reached Builtin.registry .empty (besideText op text) 0 now) →
        run op text x = run op text (.null .nowhere) := fun op text hunreached =>
    (eval_strict_lazy Builtin.registry .empty (besideText op text) 0).2 hunreached _ _
  have hreached : ∀ op text, (TypedValue.ofString text).truthy = (op == .and) →
      Frame.Reached Builtin.registry .empty (besideText op text) 0 0 := fun op text hopen =>
    reached_besideText.mpr ⟨hopen, rfl⟩
  have hunreached : ∀ op text, (TypedValue.ofString text).truthy ≠ (op == .and) →
      ¬ ∃ now, Frame.Reached Builtin.registry .empty (besideText op text) 0 now := by
    rintro op text hclosed ⟨now, h⟩
    exact hclosed (reached_besideText.mp h).1
  have hand := hreached .and "a" (by decide)
  have hor := hreached .or "" (by decide)
  have handEmpty := hunreached .and "" (by decide)
  have horText := hunreached .or "a" (by decide)
  exact ⟨hx, ⟨hand, hstrict _ _ hand⟩, ⟨handEmpty, hlazy _ _ handEmpty⟩,
    ⟨hor, hstrict _ _ hor⟩, ⟨horText, hlazy _ _ horText⟩⟩

end WorkflowExpr
