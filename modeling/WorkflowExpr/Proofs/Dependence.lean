import WorkflowExpr.Proofs.Uniform

/-!
What evaluation depends on: the nodes of the expression, the values of the names it uses and
the functions of the names it calls. Where the nodes stand in the source plays no part, nor do
other names of the context and other functions of the registry, not even names that occur only
where evaluation never comes.
-/

namespace WorkflowExpr

open Evaluation

/-- Two runs ended with the same error, or with results of one type whose values differ only in
identities outside a set. -/
inductive SameUpTo (held : Set Identity) :
    Except EvalError (TypedValue × Identity) → Except EvalError (TypedValue × Identity) → Prop
    where
  | error (error : EvalError) : SameUpTo held (.error error) (.error error)
  | ok {r : TypedValue} {last last' : Identity} (ρ : Identity → Identity)
      (hfixes : ∀ i ∈ held, ρ i = i)
      (hinj : Set.InjOn ρ (held ∪ {i | i ∈ r.value.identities})) :
      SameUpTo held (.ok (r, last)) (.ok (⟨r.value.rename ρ, r.ty⟩, last'))

/-- Runs from two states are the same up to the identities taken. -/
theorem Outcomes.sameUpTo {held : Set Nat} {next next' : Nat}
    {out out' : Except EvalError (TypedValue × Identity)} (hnext : ∀ i ∈ held, i < next)
    (h : Outcomes (shift next next') (held ∪ Set.Ici next)
      (TypedValue.Renamed (shift next next') (held ∪ Set.Ici next)) out out') :
    SameUpTo held out out' := by
  cases h with
  | error error => exact .error error
  | ok hrenaming hrelated =>
      obtain ⟨rfl, hwithin⟩ := hrelated
      refine .ok (shift next next') (fun i hi => if_pos (hnext i hi)) ?_
      exact hrenaming.injOn.mono (Set.union_subset Set.subset_union_left hwithin)

namespace Expr

mutual

/-- An expression whose nodes and names all stand nowhere. -/
def withoutSpans : Expr → Expr
  | .null _ => .null .nowhere
  | .bool _ value => .bool .nowhere value
  | .int _ value => .int .nowhere value
  | .float _ value => .float .nowhere value
  | .string _ value => .string .nowhere value
  | .var _ name => .var .nowhere name
  | .property _ receiver name => .property .nowhere receiver.withoutSpans ⟨name.name, .nowhere⟩
  | .index _ operand position => .index .nowhere operand.withoutSpans position.withoutSpans
  | .not _ operand => .not .nowhere operand.withoutSpans
  | .compare _ op left right => .compare .nowhere op left.withoutSpans right.withoutSpans
  | .logical _ op left right => .logical .nowhere op left.withoutSpans right.withoutSpans
  | .call _ callee args => .call .nowhere ⟨callee.name, .nowhere⟩ (argsWithoutSpans args)

def argsWithoutSpans : List Expr → List Expr
  | [] => []
  | arg :: args => arg.withoutSpans :: argsWithoutSpans args

end

variable {registry registry' : Registry} {ctx ctx' : Context} {e e' : Expr}

/-- Where the nodes of an expression stand does not matter. -/
theorem eval_withoutSpans (registry : Registry) (ctx : Context) (e : Expr) :
    e.withoutSpans.eval registry ctx = e.eval registry ctx := by
  induction e with
  | property span receiver name ih => simp only [withoutSpans, eval, ih]
  | index span operand position ihoperand ihposition =>
      simp only [withoutSpans, eval, ihoperand, ihposition]
  | not span operand ih => simp only [withoutSpans, eval, ih]
  | compare span op left right ihleft ihright =>
      simp only [withoutSpans, eval, ihleft, ihright]
  | logical span op left right ihleft ihright =>
      simp only [withoutSpans, eval, ihleft, ihright]
  | call span callee args ih =>
      have hargs : evalArgs registry ctx (argsWithoutSpans args) =
          evalArgs registry ctx args := by
        induction args with
        | nil => rfl
        | cons arg args ihargs =>
            rw [List.forall_mem_cons] at ih
            rw [argsWithoutSpans, evalArgs, evalArgs, ih.1, ihargs ih.2]
      simp only [withoutSpans, eval, hargs]
  | _ => rfl

/-- Contexts that agree on the names used and registries that agree on the names called give
the same run. -/
theorem eval_congr (hnames : ∀ name ∈ e.variableNames, ctx.get? name = ctx'.get? name)
    (hcalls : ∀ name ∈ e.calledNames, registry.get? name = registry'.get? name) :
    e.eval registry ctx = e.eval registry' ctx' := by
  induction e with
  | null | bool | int | float | string => rfl
  | var span name =>
      rw [eval, eval, Eval.variableValue, Eval.variableValue, hnames name List.mem_cons_self]
  | property span receiver name ih => rw [eval, eval, ih hnames hcalls]
  | index span operand position ihoperand ihposition =>
      rw [variableNames, List.forall_mem_append] at hnames
      rw [calledNames, List.forall_mem_append] at hcalls
      rw [eval, eval, ihoperand hnames.1 hcalls.1, ihposition hnames.2 hcalls.2]
  | not span operand ih => rw [eval, eval, ih hnames hcalls]
  | compare span op left right ihleft ihright =>
      rw [variableNames, List.forall_mem_append] at hnames
      rw [calledNames, List.forall_mem_append] at hcalls
      rw [eval, eval, ihleft hnames.1 hcalls.1, ihright hnames.2 hcalls.2]
  | logical span op left right ihleft ihright =>
      rw [variableNames, List.forall_mem_append] at hnames
      rw [calledNames, List.forall_mem_append] at hcalls
      rw [eval, eval, ihleft hnames.1 hcalls.1, ihright hnames.2 hcalls.2]
  | call span callee args ih =>
      rw [calledNames, List.forall_mem_cons] at hcalls
      have hcall : ∀ results, registry.call callee.name results =
          registry'.call callee.name results := by
        intro results
        rw [Registry.call, Registry.call, hcalls.1]
      have hargs : evalArgs registry ctx args = evalArgs registry' ctx' args := by
        replace hnames : ∀ name ∈ variableNamesOfArgs args, _ := hnames
        replace hcalls := hcalls.2
        clear hcall
        induction args with
        | nil => rfl
        | cons arg args ihargs =>
            rw [List.forall_mem_cons] at ih
            rw [variableNamesOfArgs, List.forall_mem_append] at hnames
            rw [calledNamesOfArgs, List.forall_mem_append] at hcalls
            rw [evalArgs, evalArgs, ih.1 hnames.1 hcalls.1, ihargs ih.2 hnames.2 hcalls.2]
      simp only [eval, hargs, hcall]

/-- Evaluation depends only on what an expression mentions. Two expressions that differ in
places only, in contexts that agree on the names used and with registries that agree on the
functions called, do the same from the same state, and from two states the same up to the
identities taken if the functions cannot tell which are in use. A name that is not used can be
bound and a function that is not called can be registered without a change. -/
theorem eval_agrees_on_mentioned (hspans : e.withoutSpans = e'.withoutSpans)
    (hnames : ∀ name ∈ e.variableNames, ctx.get? name = ctx'.get? name)
    (hcalls : ∀ name ∈ e.calledNames, registry.get? name = registry'.get? name) :
    (∀ next, e.eval registry ctx next = e'.eval registry' ctx' next) ∧
    (∀ (held : Set Identity) (next next' : Identity), registry.UniformOn held e.calledNames →
      (∀ i ∈ held ∪ ctx.heldBy e.variableNames, i < next ∧ i < next') →
        SameUpTo (held ∪ ctx.heldBy e.variableNames) (e.eval registry ctx next)
          (e'.eval registry' ctx' next')) ∧
    (∀ (name : String) (v : Value), name ∉ e.variableNames →
      e.eval registry (ctx.insert name v) = e.eval registry ctx) ∧
    (∀ callable : Callable,
      (∀ name ∈ e.calledNames, Text.lowercase name ≠ Text.lowercase callable.name) →
        e.eval (registry.register callable) ctx = e.eval registry ctx) := by
  have hsame : e.eval registry ctx = e'.eval registry' ctx' := by
    rw [eval_congr hnames hcalls, ← eval_withoutSpans, hspans, eval_withoutSpans]
  refine ⟨fun next => by rw [hsame], ?_, ?_, ?_⟩
  · intro held next next' huniform hbelow
    rw [← hsame]
    have hnext := fun i hi => (hbelow i hi).1
    exact (eval_shifted huniform hnext fun i hi => (hbelow i hi).2).sameUpTo hnext
  · intro name v hfree
    refine eval_congr (fun other member => ?_) fun _ _ => rfl
    rw [Context.get?_insert, if_neg]
    rintro rfl
    exact hfree member
  · intro callable hother
    refine eval_congr (fun _ _ => rfl) fun name member => ?_
    rw [Registry.get?_register, if_neg (hother name member)]

/-- A call of `fromJSON` on the name `x`, at some place. -/
def madeFromX (span : Span) : Expr := .call span ⟨"fromJSON", span⟩ [.var span "x"]

def textContext : Context := .ofList [("x", .string "[]")]

def failing : Callable := ⟨"fail", .atLeast 0, fun _ => throw (.internal (.other "fail"))⟩

/-- The empty array that `fromJSON` makes is the same at another place, beside another name and
another function, and from another state. -/
theorem eval_agrees_on_mentioned_fromJson :
    (madeFromX .nowhere).withoutSpans = (madeFromX ⟨2, 13⟩).withoutSpans ∧
    (∀ name ∈ (madeFromX .nowhere).variableNames,
      textContext.get? name = (textContext.insert "y" (.array 0 [])).get? name) ∧
    (∀ name ∈ (madeFromX .nowhere).calledNames,
      Builtin.registry.get? name = (Builtin.registry.register failing).get? name) ∧
    SameUpTo (∅ ∪ textContext.heldBy ["x"])
      ((madeFromX .nowhere).eval Builtin.registry textContext 0)
      ((madeFromX ⟨2, 13⟩).eval (Builtin.registry.register failing)
        (textContext.insert "y" (.array 0 [])) 1) := by
  have hspans : (madeFromX .nowhere).withoutSpans = (madeFromX ⟨2, 13⟩).withoutSpans := rfl
  have hnames : ∀ name ∈ (madeFromX .nowhere).variableNames,
      textContext.get? name = (textContext.insert "y" (.array 0 [])).get? name := by
    intro name member
    cases List.mem_singleton.mp member
    rw [Context.get?_insert, if_neg (by decide)]
  have hcalls : ∀ name ∈ (madeFromX .nowhere).calledNames,
      Builtin.registry.get? name = (Builtin.registry.register failing).get? name := by
    intro name member
    cases List.mem_singleton.mp member
    rw [Registry.get?_register, if_neg (by decide +kernel)]
  have hbelow : ∀ i ∈ ∅ ∪ textContext.heldBy ["x"], i < 0 ∧ i < 1 := by
    rintro i (hi | ⟨name, member, v, hv, hi⟩)
    · cases hi
    · cases List.mem_singleton.mp member
      cases hv
      cases hi
  have hsame := (eval_agrees_on_mentioned hspans hnames hcalls).2.1 ∅ 0 1
    ((Builtin.registry_uniform ∅).on _) hbelow
  exact ⟨hspans, hnames, hcalls, hsame⟩

end Expr

end WorkflowExpr
