import WorkflowExpr.Proofs.Provenance
import WorkflowExpr.Proofs.Variables

/-!
In which order the parts of an expression run. A run leads from one unused identity to another,
and what runs in it runs in between: the parts of a node one after the other from left to
right, and a function after its arguments.
-/

namespace WorkflowExpr

open Eval Evaluation

namespace Evaluation

variable {α β : Type} {R : Identity → Identity → Prop} {x : Evaluation α}
  {f : α → Evaluation β}

/-- Whether every run that succeeds ends with an unused identity related to the first. -/
def Moves (R : Identity → Identity → Prop) (x : Evaluation α) : Prop :=
  ∀ next last a, x next = .ok (a, last) → R next last

/-- The first part of a sequence that succeeds has succeeded, before the rest. -/
theorem exists_first_run {b : β} {next last : Identity} (h : (x >>= f) next = .ok (b, last))
    (hf : ∀ a, Moves R (f a)) : ∃ a done, x next = .ok (a, done) ∧ R done last := by
  obtain ⟨a, done, ha, hb⟩ := bind_eq_ok.mp h
  exact ⟨a, done, ha, hf a _ _ _ hb⟩

variable [IsPreorder Identity R]

theorem Moves.of_eq (h : ∀ next last a, x next = .ok (a, last) → last = next) :
    Moves R x := by
  intro next last a hx
  rw [h next last a hx]
  exact Std.Refl.refl next

theorem Moves.pure (a : α) : Moves R (Pure.pure a : Evaluation α) := by
  apply Moves.of_eq
  intro next last b h
  cases h
  rfl

theorem Moves.bind (hx : Moves R x) (hf : ∀ a, Moves R (f a)) : Moves R (x >>= f) := by
  intro next last b h
  obtain ⟨a, mid, ha, hb⟩ := bind_eq_ok.mp h
  exact IsTrans.trans next mid last (hx _ _ _ ha) (hf a _ _ _ hb)

end Evaluation

section Moves

variable {registry : Registry} {ctx : Context} {R : Identity → Identity → Prop}
  [IsPreorder Identity R]

theorem Eval.variableValue_moves (name : String) : Moves R (variableValue ctx name) := by
  apply Moves.of_eq
  intro next last r h
  obtain ⟨_, _, _, hlast⟩ := variableValue_eq_ok.mp h
  exact hlast

theorem Eval.propertyValue_moves (v : Value) (name : String) :
    Moves R (propertyValue v name) := by
  apply Moves.of_eq
  intro next last r h
  obtain ⟨_, _, _, _, _, _, hlast⟩ := propertyValue_eq_ok.mp h
  exact hlast

theorem Eval.indexable_moves (v : Value) : Moves R (indexable v) := by
  apply Moves.of_eq
  intro next last items h
  obtain ⟨_, _, hlast⟩ := indexable_eq_ok.mp h
  exact hlast

theorem Eval.itemAt_moves (items : List Value) (index : Binary64) :
    Moves R (itemAt items index) := by
  apply Moves.of_eq
  intro next last r h
  exact (itemAt_eq_ok.mp h).2

theorem Expr.evalArgs_moves_of_forall {args : List Expr}
    (h : ∀ arg ∈ args, Moves R (arg.eval registry ctx)) :
    Moves R (evalArgs registry ctx args) := by
  induction args with
  | nil => exact Moves.pure []
  | cons arg args ih =>
      rw [List.forall_mem_cons] at h
      exact h.1.bind fun r => (ih h.2).bind fun results => Moves.pure (r :: results)

/-- An expression moves the unused identity no further than the functions do that it calls. -/
theorem Expr.eval_moves {e : Expr}
    (hcall : ∀ name ∈ e.calledNames, ∀ results, Moves R (registry.call name results)) :
    Moves R (e.eval registry ctx) := by
  induction e with
  | null | bool | int | float | string => exact Moves.pure _
  | var span name => exact variableValue_moves name
  | property span receiver name ih =>
      exact (ih hcall).bind fun r => propertyValue_moves r.value name.name
  | index span operand position ihoperand ihposition =>
      rw [calledNames, List.forall_mem_append] at hcall
      have hposition := ihposition hcall.2
      refine (ihoperand hcall.1).bind fun r => (indexable_moves r.value).bind fun items => ?_
      exact hposition.bind fun i => itemAt_moves items i.value.toNumber
  | not span operand ih => exact (ih hcall).bind fun r => Moves.pure _
  | compare span op left right ihleft ihright =>
      rw [calledNames, List.forall_mem_append] at hcall
      exact (ihleft hcall.1).bind fun l => (ihright hcall.2).bind fun r => Moves.pure _
  | logical span op left right ihleft ihright =>
      rw [calledNames, List.forall_mem_append] at hcall
      refine (ihleft hcall.1).bind fun l => ?_
      cases decidedBy? op l with
      | some answer => exact Moves.pure _
      | none => exact (ihright hcall.2).bind fun r => Moves.pure _
  | call span callee args ih =>
      rw [calledNames, List.forall_mem_cons] at hcall
      have hargs : Moves R (evalArgs registry ctx args) := by
        apply evalArgs_moves_of_forall
        intro arg member
        apply ih arg member
        intro name hname
        exact hcall.2 name (mem_calledNamesOfArgs.mpr ⟨arg, member, hname⟩)
      exact hargs.bind (hcall.1)

end Moves

namespace Builtin

/-- A built-in function takes no identities unless it is `fromJSON`. -/
theorem call_keeps {name : String} (hname : Text.lowercase name ≠ "fromjson")
    (args : List TypedValue) : Moves (· = ·) (registry.call name args) := by
  apply Moves.of_eq
  intro next last r h
  rcases call_ok_cases h with ⟨_, _, _, hlast⟩ | ⟨_, _, hlast⟩ | ⟨hjson, _⟩
  · exact hlast
  · exact hlast
  · exact absurd hjson hname

theorem call_advances (name : String) (args : List TypedValue) :
    Moves (· ≤ ·) (registry.call name args) := by
  intro next last r h
  rcases call_ok_cases h with ⟨_, _, _, rfl⟩ | ⟨_, _, rfl⟩ | ⟨_, _, _, hv, _⟩
  · exact Nat.le_refl _
  · exact Nat.le_refl _
  · exact (Value.ofJson_within ∅ hv).1

theorem eval_advances (ctx : Context) (e : Expr) : Moves (· ≤ ·) (e.eval registry ctx) := by
  intro next last r h
  exact (Expr.eval_within h).1

theorem evalArgs_advances (ctx : Context) (args : List Expr) :
    Moves (· ≤ ·) (Expr.evalArgs registry ctx args) :=
  Expr.evalArgs_moves_of_forall fun arg _ => eval_advances ctx arg

end Builtin

namespace Expr

variable {registry : Registry} {ctx : Context} {before after : List Expr} {arg : Expr}
  {results : List TypedValue} {next last : Identity}

/-- When a call's arguments succeed, each of them has run right after those before it. -/
theorem exists_run_of_evalArgs
    (h : evalArgs registry ctx (before ++ arg :: after) next = .ok (results, last)) :
    ∃ earlier now r done later,
      evalArgs registry ctx before next = .ok (earlier, now) ∧
      arg.eval registry ctx now = .ok (r, done) ∧
      evalArgs registry ctx after done = .ok (later, last) := by
  induction before generalizing next results with
  | nil =>
      obtain ⟨r, done, later, harg, hafter, -⟩ := evalArgs_cons_eq_ok.mp h
      exact ⟨[], next, r, done, later, rfl, harg, hafter⟩
  | cons first before ih =>
      obtain ⟨r, mid, rest, hfirst, hrest, -⟩ := evalArgs_cons_eq_ok.mp h
      obtain ⟨earlier, now, s, done, later, hbefore, harg, hafter⟩ := ih hrest
      have hcons := evalArgs_cons_eq_ok.mpr ⟨r, mid, earlier, hfirst, hbefore, rfl⟩
      exact ⟨r :: earlier, now, s, done, later, hcons, harg, hafter⟩

end Expr

namespace Frame

/-- The parts of a node to the left of the one left out. -/
def earlier : Frame → List Expr
  | .property _ _ | .indexOperand _ _ | .not _ | .compareLeft _ _ _ | .logicalLeft _ _ _ => []
  | .indexPosition _ e | .compareRight _ _ e | .logicalRight _ _ e => [e]
  | .argument _ _ before _ => before

/-- Two items at places of one list are the same, or one stands to the left of the other. -/
theorem append_cons_cases {α : Type} {before before' after after' : List α} {a a' : α}
    (h : before ++ a :: after = before' ++ a' :: after') :
    (before = before' ∧ a = a' ∧ after = after') ∨
    (∃ between, before' = before ++ a :: between) ∨
    (∃ between, before = before' ++ a' :: between) := by
  induction before generalizing before' with
  | nil =>
      cases before' with
      | nil =>
          cases h
          exact .inl ⟨rfl, rfl, rfl⟩
      | cons first before' =>
          cases h
          exact .inr (.inl ⟨before', rfl⟩)
  | cons first before ih =>
      cases before' with
      | nil =>
          cases h
          exact .inr (.inr ⟨before, rfl⟩)
      | cons first' before' =>
          obtain ⟨rfl, hrest⟩ := List.cons.inj h
          rcases ih hrest with ⟨rfl, rfl, rfl⟩ | ⟨between, rfl⟩ | ⟨between, rfl⟩
          · exact .inl ⟨rfl, rfl, rfl⟩
          · exact .inr (.inl ⟨between, rfl⟩)
          · exact .inr (.inr ⟨between, rfl⟩)

/-- Two frames of one node leave out the same part, or one has the other's to its left. -/
theorem plug_eq_plug {frame frame' : Frame} {part part' : Expr}
    (h : frame.plug part = frame'.plug part') :
    (frame = frame' ∧ part = part') ∨
    (∃ between, frame'.earlier = frame.earlier ++ part :: between) ∨
    (∃ between, frame.earlier = frame'.earlier ++ part' :: between) := by
  cases frame with
  | property span name =>
      cases frame' <;> cases h
      exact .inl ⟨rfl, rfl⟩
  | indexOperand span position =>
      cases frame' with
      | indexOperand span position =>
          cases h
          exact .inl ⟨rfl, rfl⟩
      | indexPosition span operand =>
          cases h
          exact .inr (.inl ⟨[], rfl⟩)
      | _ => cases h
  | indexPosition span operand =>
      cases frame' with
      | indexOperand span position =>
          cases h
          exact .inr (.inr ⟨[], rfl⟩)
      | indexPosition span operand =>
          cases h
          exact .inl ⟨rfl, rfl⟩
      | _ => cases h
  | not span =>
      cases frame' <;> cases h
      exact .inl ⟨rfl, rfl⟩
  | compareLeft span op right =>
      cases frame' with
      | compareLeft span op right =>
          cases h
          exact .inl ⟨rfl, rfl⟩
      | compareRight span op left =>
          cases h
          exact .inr (.inl ⟨[], rfl⟩)
      | _ => cases h
  | compareRight span op left =>
      cases frame' with
      | compareLeft span op right =>
          cases h
          exact .inr (.inr ⟨[], rfl⟩)
      | compareRight span op left =>
          cases h
          exact .inl ⟨rfl, rfl⟩
      | _ => cases h
  | logicalLeft span op right =>
      cases frame' with
      | logicalLeft span op right =>
          cases h
          exact .inl ⟨rfl, rfl⟩
      | logicalRight span op left =>
          cases h
          exact .inr (.inl ⟨[], rfl⟩)
      | _ => cases h
  | logicalRight span op left =>
      cases frame' with
      | logicalLeft span op right =>
          cases h
          exact .inr (.inr ⟨[], rfl⟩)
      | logicalRight span op left =>
          cases h
          exact .inl ⟨rfl, rfl⟩
      | _ => cases h
  | argument span callee before after =>
      cases frame' with
      | argument span' callee' before' after' =>
          obtain ⟨rfl, rfl, hargs⟩ := Expr.call.inj h
          rcases append_cons_cases hargs with ⟨rfl, rfl, rfl⟩ | hright | hleft
          · exact .inl ⟨rfl, rfl⟩
          · exact .inr (.inl hright)
          · exact .inr (.inr hleft)
      | _ => cases h

variable {registry : Registry} {ctx : Context} {frame : Frame} {frames : List Frame}
  {part : Expr} {r : TypedValue} {next now now' last : Identity}

/-- Evaluation comes to a part when all parts to its left have run. -/
theorem Enters.earlier_ok (henter : frame.Enters registry ctx next now) :
    ∃ results, Expr.evalArgs registry ctx frame.earlier next = .ok (results, now) := by
  cases henter with
  | property | indexOperand | not | compareLeft | logicalLeft => exact ⟨[], rfl⟩
  | indexPosition span hoperand harray =>
      exact ⟨_, Expr.evalArgs_cons_eq_ok.mpr ⟨_, now, [], hoperand, rfl, rfl⟩⟩
  | compareRight span op hleft =>
      exact ⟨_, Expr.evalArgs_cons_eq_ok.mpr ⟨_, now, [], hleft, rfl, rfl⟩⟩
  | logicalRight span hleft hopen =>
      exact ⟨_, Expr.evalArgs_cons_eq_ok.mpr ⟨_, now, [], hleft, rfl, rfl⟩⟩
  | argument span callee after hbefore => exact Expr.succeed_iff.mp hbefore

theorem Enters.unique (henter : frame.Enters registry ctx next now)
    (henter' : frame.Enters registry ctx next now') : now = now' := by
  obtain ⟨results, h⟩ := henter.earlier_ok
  obtain ⟨results', h'⟩ := henter'.earlier_ok
  rw [h] at h'
  cases h'
  rfl

theorem Enters.le (henter : frame.Enters Builtin.registry ctx next now) : next ≤ now := by
  obtain ⟨results, h⟩ := henter.earlier_ok
  exact Builtin.evalArgs_advances ctx frame.earlier next now results h

/-- A part that evaluation comes to in a node that succeeds has succeeded, before the node. -/
theorem Enters.exists_run (henter : frame.Enters Builtin.registry ctx next now)
    (h : (frame.plug part).eval Builtin.registry ctx next = .ok (r, last)) :
    ∃ s done, part.eval Builtin.registry ctx now = .ok (s, done) ∧ done ≤ last := by
  cases henter with
  | property span name =>
      rw [plug, Expr.eval] at h
      exact exists_first_run h fun s => propertyValue_moves s.value name.name
  | indexOperand span position =>
      rw [plug, Expr.eval] at h
      apply exists_first_run h
      intro s
      refine (indexable_moves s.value).bind fun items => ?_
      exact (Builtin.eval_advances ctx position).bind fun i => itemAt_moves items _
  | indexPosition span hoperand harray =>
      obtain ⟨items, hitems⟩ := indexable_of_tag harray now
      rw [plug, Expr.eval, bind_of_ok hoperand, bind_of_ok hitems] at h
      exact exists_first_run h fun s => itemAt_moves items s.value.toNumber
  | not span =>
      rw [plug, Expr.eval] at h
      exact exists_first_run h fun s => Moves.pure _
  | compareLeft span op right =>
      rw [plug, Expr.eval] at h
      apply exists_first_run h
      intro s
      exact (Builtin.eval_advances ctx right).bind fun r => Moves.pure _
  | compareRight span op hleft =>
      rw [plug, Expr.eval, bind_of_ok hleft] at h
      exact exists_first_run h fun s => Moves.pure _
  | logicalLeft span op right =>
      rw [plug, Expr.eval] at h
      apply exists_first_run h
      intro s
      cases decidedBy? op s with
      | some answer => exact Moves.pure _
      | none => exact (Builtin.eval_advances ctx right).bind fun r => Moves.pure _
  | logicalRight span hleft hopen =>
      rw [plug, Expr.eval, bind_of_ok hleft, decidedBy?_eq_none.mpr hopen] at h
      exact exists_first_run h fun s => Moves.pure _
  | argument span callee after hbefore =>
      obtain ⟨_, hresults⟩ := Expr.succeed_iff.mp hbefore
      rw [plug, Expr.eval] at h
      obtain ⟨results, mid, hargs, hcall⟩ := bind_eq_ok.mp h
      obtain ⟨earlier, start, s, done, later, hearlier, hpart, hlater⟩ :=
        Expr.exists_run_of_evalArgs hargs
      rw [hresults] at hearlier
      cases hearlier
      have hdone := Builtin.evalArgs_advances ctx after done mid later hlater
      exact ⟨s, done, hpart, Nat.le_trans hdone (Builtin.call_advances _ _ _ _ _ hcall)⟩

end Frame

end WorkflowExpr
