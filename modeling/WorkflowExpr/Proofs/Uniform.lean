import WorkflowExpr.Proofs.Binding

/-!
Functions that cannot tell which identities are in use. Such a function may have containers of
its own and may compare containers, but what it does on renamed arguments is what it did
before, renamed. All built-in functions are of this kind. An expression that calls no other
functions fails with the same error or yields the same result from whatever state it starts,
up to the identities that it takes itself.
-/

namespace WorkflowExpr

open Evaluation TypedValue

/-- Whether a function cannot tell which identities are in use, besides those of its own
containers. -/
def Callable.Uniform (held : Set Identity) (callable : Callable) : Prop :=
  ∀ (ρ : Identity → Identity) (S : Set Identity), (∀ i ∈ held, i ∈ S ∧ ρ i = i) →
    ∀ args args' : List TypedValue, callable.arity.accepts args.length = true →
      List.Forall₂ (Renamed ρ S) args args' →
        Simulates ρ S (Renamed ρ S) (callable.body args) (callable.body args')

/-- Whether the functions of some names cannot tell which identities are in use. -/
def Registry.UniformOn (registry : Registry) (held : Set Identity) (names : List String) : Prop :=
  ∀ name ∈ names, ∀ callable, registry.get? name = some callable → callable.Uniform held

def Registry.Uniform (registry : Registry) (held : Set Identity) : Prop :=
  ∀ name callable, registry.get? name = some callable → callable.Uniform held

/-- The identities in the values that some names stand for. -/
def Context.heldBy (ctx : Context) (names : List String) : Set Identity :=
  {i | ∃ name ∈ names, ∃ v, ctx.get? name = some v ∧ i ∈ v.identities}

theorem Context.within_heldBy {ctx : Context} {names : List String} {name : String} {v : Value}
    (member : name ∈ names) (h : ctx.get? name = some v) : v.Within (ctx.heldBy names) :=
  fun _ hi => ⟨name, member, v, h, hi⟩

theorem Builtin.uniform (held : Set Identity) {callable : Callable}
    (member : callable ∈ callables) : callable.Uniform held :=
  fun ρ S _ _ _ haccepts h => body_simulates (renamed_relates ρ S) member haccepts h

theorem Builtin.registry_uniform (held : Set Identity) : registry.Uniform held :=
  fun _ _ hget => uniform held (get?_eq_some hget).1

theorem Registry.Uniform.on {registry : Registry} {held : Set Identity}
    (h : registry.Uniform held) (names : List String) : registry.UniformOn held names :=
  fun name _ => h name

theorem Context.heldBy_subset (ctx : Context) (names : List String) :
    ctx.heldBy names ⊆ ctx.held := by
  rintro i ⟨name, -, v, hv, hi⟩
  exact ⟨name, v, hv, hi⟩

namespace Expr

variable {registry : Registry} {ctx ctx' : Context} {held : Set Identity}
  {ρ : Identity → Identity} {S : Set Identity} {e : Expr}

/-- Two runs in contexts that differ by a renaming do the same up to the renaming. -/
theorem eval_renamed (huniform : registry.UniformOn held e.calledNames)
    (hheld : ∀ i ∈ held, i ∈ S ∧ ρ i = i)
    (hnames : ∀ name ∈ e.variableNames, Context.CorrespondsAt ρ S ctx ctx' name) :
    Simulates ρ S (Renamed ρ S) (e.eval registry ctx) (e.eval registry ctx') := by
  refine eval_simulates_of_calls (renamed_relates ρ S) ?_ hnames
  intro name member args args' hargs
  refine Registry.call_simulates hargs fun callable hget haccepts => ?_
  exact huniform name member callable hget ρ S hheld args args' haccepts hargs

/-- From a state and from another one, an expression does the same up to a shift of the
identities that it takes. -/
theorem eval_shifted {next next' : Nat} (huniform : registry.UniformOn held e.calledNames)
    (hnext : ∀ i ∈ held ∪ ctx.heldBy e.variableNames, i < next)
    (hnext' : ∀ i ∈ held ∪ ctx.heldBy e.variableNames, i < next') :
    Outcomes (shift next next') (held ∪ ctx.heldBy e.variableNames ∪ Set.Ici next)
      (Renamed (shift next next') (held ∪ ctx.heldBy e.variableNames ∪ Set.Ici next))
      (e.eval registry ctx next) (e.eval registry ctx next') := by
  have fixed : ∀ i ∈ held ∪ ctx.heldBy e.variableNames, shift next next' i = i :=
    fun i hi => if_pos (hnext i hi)
  refine eval_renamed huniform ?_ ?_ next next' (shift_renaming hnext hnext')
  · exact fun i hi => ⟨.inl (.inl hi), fixed i (.inl hi)⟩
  · intro name member
    have hwithin : ∀ v, ctx.get? name = some v → v.Within (ctx.heldBy e.variableNames) :=
      fun v hv => Context.within_heldBy member hv
    refine ⟨?_, fun v hv i hi => .inl (.inr (hwithin v hv i hi))⟩
    cases hv : ctx.get? name with
    | none => rfl
    | some v =>
        have hsame := Value.rename_eq_self fun i hi => fixed i (.inr (hwithin v hv i hi))
        rw [Option.map_some, hsame]

/-- No identity that was in use becomes unused. A run that gave one back would have to end in
one state from two different starts, which a shift between them does not allow. -/
theorem eval_advances_of_uniform {r : TypedValue} {next last : Nat}
    (huniform : registry.UniformOn held e.calledNames)
    (hnext : ∀ i ∈ held ∪ ctx.heldBy e.variableNames, i < next)
    (h : e.eval registry ctx next = .ok (r, last)) : next ≤ last := by
  have hsame := eval_shifted huniform hnext fun i hi => Nat.lt_succ_of_lt (hnext i hi)
  rw [h] at hsame
  generalize e.eval registry ctx (next + 1) = out at hsame
  cases hsame with
  | @ok _ _ _ last' hrenaming hrelated =>
      by_contra hback
      have hback : last < next := Nat.not_le.mp hback
      have hlast : last = last' := (if_pos hback).symm.trans (hrenaming.shifts 0)
      have hshift := hrenaming.shifts (next - last)
      have hsum : last + (next - last) = next := Nat.add_sub_cancel' (Nat.le_of_lt hback)
      rw [← hlast, hsum, shift_of_le (Nat.le_refl next), Nat.sub_self] at hshift
      exact absurd hshift (Nat.succ_ne_self next)

end Expr

end WorkflowExpr
