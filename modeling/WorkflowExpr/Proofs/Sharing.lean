import WorkflowExpr.Proofs.Binding
import WorkflowExpr.Proofs.CaseFolding
import WorkflowExpr.Proofs.Comparison
import WorkflowExpr.Proofs.Schedule
import WorkflowExpr.Proofs.WholeNumbers

/-!
Which containers are the same one. An array or object that an expression yields is one of the
context, at any depth, or one that a call of `fromJSON` has made in this run, and then no other
call has made it and the context does not have it. No way of yielding a value copies a
container, so an expression that makes none is equal to itself.
-/

namespace WorkflowExpr

open Eval Evaluation

/-- Values found in a value at any depth, the value itself among them. -/
inductive Value.Part (v : Value) : Value → Prop where
  | self : Part v v
  | item {item : Value} {items : List Value} (identity : Identity) (h : Part v item)
      (member : item ∈ items) : Part v (.array identity items)
  | field {field : String × Value} {fields : List (String × Value)} (identity : Identity)
      (h : Part v field.2) (member : field ∈ fields) : Part v (.object identity fields)

namespace Value

variable {u v w : Value}

theorem Part.trans (h : u.Part v) (h' : v.Part w) : u.Part w := by
  induction h' with
  | self => exact h
  | item identity _ member ih => exact .item identity ih member
  | field identity _ member ih => exact .field identity ih member

/-- A part brings no identities of its own. -/
theorem Part.mem_identities (h : v.Part w) {i : Identity} (hi : i ∈ v.identities) :
    i ∈ w.identities := by
  induction h with
  | self => exact hi
  | item identity _ member ih =>
      rw [identities, List.mem_cons, mem_identitiesOfItems]
      exact .inr ⟨_, member, ih⟩
  | field identity _ member ih =>
      rw [identities, List.mem_cons, mem_identitiesOfFields]
      exact .inr ⟨_, member, ih⟩

theorem part_of_get? {identity : Identity} {fields : Fields Value} {name : String}
    (h : Fields.get? fields name = some v) : v.Part (.object identity fields) := by
  obtain ⟨field, member, rfl⟩ := Fields.exists_mem_of_get? h
  exact .field identity .self member

theorem part_of_getElem? {identity : Identity} {items : List Value} {i : Nat}
    (h : items[i]? = some v) : v.Part (.array identity items) :=
  .item identity .self (List.mem_of_getElem? h)

/-- Containers without a common identity are not the same. -/
theorem sameIdentity_eq_false (h : ∀ i ∈ v.identities, i ∉ w.identities) :
    v.sameIdentity w = false := by
  have apart {i j : Identity} (hi : i ∈ v.identities) (hj : j ∈ w.identities) :
      (i == j) = false := by
    apply beq_eq_false_iff_ne.mpr
    rintro rfl
    exact h i hi hj
  cases v with
  | array i items =>
      cases w with
      | array j others => exact apart List.mem_cons_self List.mem_cons_self
      | _ => rfl
  | object i fields =>
      cases w with
      | object j others => exact apart List.mem_cons_self List.mem_cons_self
      | _ => rfl
  | _ => rfl

end Value

namespace TypedValue

/-- Everything but not-a-number is equal to itself. -/
theorem equal_self {r : TypedValue} (h : r.value ≠ .number .nan) : r.equal r = true := by
  obtain ⟨v, ty⟩ := r
  have hsame : equal ⟨v, ty⟩ ⟨v, ty⟩ = v.equal v := by
    rw [equal, coerce, if_pos rfl]
  rw [hsame]
  cases v with
  | null => rfl
  | bool b => exact beq_self_eq_true b
  | number n =>
      apply Binary64.numericEq_self
      cases n with
      | nan => exact absurd rfl h
      | _ => rfl
  | string s => exact Text.eqIgnoringCase_refl s
  | array identity | object identity => exact beq_self_eq_true identity

theorem equal_nan {r : TypedValue} (h : r.value = .number .nan) : r.equal r = false := by
  obtain ⟨v, ty⟩ := r
  cases h
  rfl

end TypedValue

/-- Whether a context has a value, bound to a name or at any depth in what is bound to one. -/
def Context.Holds (ctx : Context) (v : Value) : Prop :=
  ∃ name w, ctx.get? name = some w ∧ v.Part w

namespace Expr

variable {ctx : Context} {e part : Expr} {frame : Frame} {place place' : List Frame}
  {r : TypedValue} {v w w' : Value} {next mid last first done first' done' : Identity}

/-- Whether evaluation comes to a call of `fromJSON` at a place, and the call makes a value out
of the identities from the first to the one that is unused then. -/
def Makes (ctx : Context) (e : Expr) (next : Identity) (place : List Frame) (v : Value)
    (first done : Identity) : Prop :=
  ∃ span callee args results now,
    Frame.fill place (.call span callee args) = e ∧
    Frame.Reached Builtin.registry ctx place next now ∧
    Text.lowercase callee.name = "fromjson" ∧
    evalArgs Builtin.registry ctx args now = .ok (results, first) ∧
    Builtin.registry.call callee.name results first = .ok (.ofValue v, done)

theorem Makes.inside (h : part.Makes ctx mid place v first done)
    (henter : frame.Enters Builtin.registry ctx next mid) :
    (frame.plug part).Makes ctx next (frame :: place) v first done := by
  obtain ⟨span, callee, args, results, now, rfl, hreached, hname, hargs, hcall⟩ := h
  exact ⟨span, callee, args, results, now, rfl, .inside henter hreached, hname, hargs, hcall⟩

/-- A call inside a node is made in the part that the first frame leaves out. -/
theorem Makes.exists_part (h : e.Makes ctx next (frame :: place) v first done) :
    ∃ part mid, frame.plug part = e ∧ frame.Enters Builtin.registry ctx next mid ∧
      part.Makes ctx mid place v first done := by
  obtain ⟨span, callee, args, results, now, rfl, hreached, hname, hargs, hcall⟩ := h
  cases hreached with
  | inside henter hinside =>
      exact ⟨_, _, rfl, henter, span, callee, args, results, now, rfl, hinside, hname, hargs,
        hcall⟩

/-- A call that is the whole expression runs its arguments first. -/
theorem Makes.exists_call (h : e.Makes ctx next [] v first done) :
    ∃ span callee args results, e = .call span callee args ∧
      evalArgs Builtin.registry ctx args next = .ok (results, first) ∧
      Builtin.registry.call callee.name results first = .ok (.ofValue v, done) := by
  obtain ⟨span, callee, args, results, now, rfl, hreached, -, hargs, hcall⟩ := h
  cases hreached
  exact ⟨span, callee, args, results, rfl, hargs, hcall⟩

/-- What is made has no identities but those that the call has taken. -/
theorem Makes.within (h : e.Makes ctx next place v first done) :
    v.Within (Set.Ico first done) := by
  obtain ⟨span, callee, args, results, now, -, -, hname, -, hcall⟩ := h
  rcases Builtin.call_ok_cases hcall with
    ⟨_, hprimitive, hv, -⟩ | ⟨hjoin, -⟩ | ⟨-, json, _, hmade, hv⟩
  · cases hv
    exact Value.within_of_isPrimitive hprimitive
  · exact absurd (hname.symm.trans hjoin) (by decide)
  · cases hv
    have hwithin := (Value.ofJson_within ∅ hmade).2
    rwa [Set.empty_union] at hwithin

/-- The calls of a run that succeeds take identities that the run takes. -/
theorem Makes.bounds (h : e.Makes ctx next place v first done)
    (hrun : e.eval Builtin.registry ctx next = .ok (r, last)) : next ≤ first ∧ done ≤ last := by
  induction place generalizing e next r last with
  | nil =>
      obtain ⟨span, callee, args, results, rfl, hargs, hcall⟩ := h.exists_call
      rw [eval, bind_of_ok hargs, hcall] at hrun
      cases hrun
      exact ⟨Builtin.evalArgs_advances ctx args next first results hargs, Nat.le_refl _⟩
  | cons frame place ih =>
      obtain ⟨part, mid, rfl, henter, hpart⟩ := h.exists_part
      obtain ⟨s, after, hsub, hafter⟩ := henter.exists_run hrun
      obtain ⟨hfirst, hdone⟩ := ih hpart hsub
      exact ⟨Nat.le_trans henter.le hfirst, Nat.le_trans hdone hafter⟩

/-- What runs in a part that stands among the arguments has run when all of them have. -/
theorem Makes.done_le {before after : List Expr} {results : List TypedValue}
    (h : part.Makes ctx mid place v first done)
    (hbefore : ∃ earlier, evalArgs Builtin.registry ctx before next = .ok (earlier, mid))
    (hargs : evalArgs Builtin.registry ctx (before ++ part :: after) next =
      .ok (results, last)) : done ≤ last := by
  obtain ⟨earlier, hearlier⟩ := hbefore
  obtain ⟨_, now, s, stop, later, hsame, hpart, hlater⟩ := exists_run_of_evalArgs hargs
  rw [hearlier] at hsame
  cases hsame
  have hstop := Builtin.evalArgs_advances ctx after stop last later hlater
  exact Nat.le_trans (h.bounds hpart).2 hstop

/-- A call inside the arguments of another is over before the other one starts. -/
theorem Makes.done_le_of_call (h : e.Makes ctx next [] v first done)
    (h' : e.Makes ctx next (frame :: place) w first' done') : done' ≤ first := by
  obtain ⟨span, callee, args, results, rfl, hargs, -⟩ := h.exists_call
  obtain ⟨part, mid, hplug, henter, hpart⟩ := h'.exists_part
  cases frame with
  | argument span' callee' before after =>
      cases hplug
      exact hpart.done_le henter.earlier_ok hargs
  | _ => cases hplug

/-- Of the calls at two places of a run one is over before the other starts. -/
theorem Makes.apart (h : e.Makes ctx next place v first done)
    (h' : e.Makes ctx next place' w first' done') (hplace : place ≠ place')
    (hrun : e.eval Builtin.registry ctx next = .ok (r, last)) :
    done ≤ first' ∨ done' ≤ first := by
  induction place generalizing place' e next r last with
  | nil =>
      cases place' with
      | nil => exact absurd rfl hplace
      | cons frame' place' => exact .inr (h.done_le_of_call h')
  | cons frame place ih =>
      cases place' with
      | nil => exact .inl (h'.done_le_of_call h)
      | cons frame' place' =>
          obtain ⟨part, mid, rfl, henter, hpart⟩ := h.exists_part
          obtain ⟨part', mid', hplug, henter', hpart'⟩ := h'.exists_part
          obtain ⟨s, after, hsub, -⟩ := henter.exists_run hrun
          rcases Frame.plug_eq_plug hplug with
            ⟨rfl, rfl⟩ | ⟨between, hearlier⟩ | ⟨between, hearlier⟩
          · cases henter.unique henter'
            have hrest : place ≠ place' := fun heq => hplace (by rw [heq])
            exact ih hpart hpart' hrest hsub
          · obtain ⟨results, hargs⟩ := henter.earlier_ok
            rw [hearlier] at hargs
            have hbefore := hpart'.done_le henter'.earlier_ok hargs
            exact .inr (Nat.le_trans hbefore (hpart.bounds hsub).1)
          · obtain ⟨results, hargs⟩ := henter'.earlier_ok
            rw [hearlier] at hargs
            rw [← hplug] at hrun
            obtain ⟨s', after', hsub', -⟩ := henter'.exists_run hrun
            have hbefore := hpart.done_le henter.earlier_ok hargs
            exact .inl (Nat.le_trans hbefore (hpart'.bounds hsub').1)

/-- Where a container comes from that an expression yields. -/
inductive Source (ctx : Context) (e : Expr) (next : Identity) (v : Value) : Prop where
  | held (h : ctx.Holds v)
  | made {place : List Frame} {w : Value} {first done : Identity}
      (h : e.Makes ctx next place w first done) (hpart : v.Part w)

theorem Source.of_part (h : e.Source ctx next w) (hpart : v.Part w) : e.Source ctx next v := by
  cases h with
  | held h =>
      obtain ⟨name, bound, hget, hw⟩ := h
      exact .held ⟨name, bound, hget, hpart.trans hw⟩
  | made h hw => exact .made h (hpart.trans hw)

theorem Source.inside (h : part.Source ctx mid v)
    (henter : frame.Enters Builtin.registry ctx next mid) :
    (frame.plug part).Source ctx next v := by
  cases h with
  | held h => exact .held h
  | made h hpart => exact .made (h.inside henter) hpart

/-- What an expression yields has no parts, or is held by the context, or is made by a call in
the run. -/
theorem eval_source (h : e.eval Builtin.registry ctx next = .ok (r, last)) :
    r.value.isPrimitive = true ∨ e.Source ctx next r.value := by
  induction e generalizing next last r with
  | null | bool | int | float | string =>
      cases h
      exact .inl rfl
  | var span name =>
      obtain ⟨v, hget, rfl, -⟩ := variableValue_eq_ok.mp h
      exact .inr (.held ⟨name, v, hget, .self⟩)
  | property span receiver name ih =>
      simp only [eval, bind_eq_ok] at h
      obtain ⟨object, mid, hobject, hproperty⟩ := h
      obtain ⟨identity, fields, found, hvalue, hget, rfl, -⟩ := propertyValue_eq_ok.mp hproperty
      rcases ih hobject with hprimitive | hsource
      · rw [hvalue] at hprimitive
        cases hprimitive
      · rw [hvalue] at hsource
        have hfound := hsource.of_part (Value.part_of_get? hget)
        exact .inr (hfound.inside (.property span name))
  | index span operand position ihoperand ihposition =>
      simp only [eval, bind_eq_ok] at h
      obtain ⟨array, mid, harray, items, _, hitems, i, final, hi, hat⟩ := h
      obtain ⟨identity, hvalue, rfl⟩ := indexable_eq_ok.mp hitems
      rcases (itemAt_eq_ok.mp hat).1 with ⟨-, rfl⟩ | ⟨-, -, k, item, -, hitem, rfl⟩
      · exact .inl rfl
      rcases ihoperand harray with hprimitive | hsource
      · rw [hvalue] at hprimitive
        cases hprimitive
      · rw [hvalue] at hsource
        have hfound := hsource.of_part (Value.part_of_getElem? hitem)
        exact .inr (hfound.inside (.indexOperand span position))
  | not span operand ih =>
      simp only [eval, bind_eq_ok] at h
      obtain ⟨_, _, -, hreturn⟩ := h
      cases hreturn
      exact .inl rfl
  | compare span op left right ihleft ihright =>
      simp only [eval, bind_eq_ok] at h
      obtain ⟨_, _, -, _, _, -, hreturn⟩ := h
      cases hreturn
      exact .inl rfl
  | logical span op left right ihleft ihright =>
      obtain ⟨l, mid, -, ⟨answer, -, rfl, -⟩ | ⟨-, s, -, rfl⟩⟩ := eval_logical_eq_ok.mp h
      · exact .inl rfl
      · exact .inl rfl
  | call span callee args ih =>
      simp only [eval, bind_eq_ok] at h
      obtain ⟨results, mid, hargs, hcall⟩ := h
      rcases Builtin.call_ok_cases hcall with
        ⟨v, hprimitive, rfl, -⟩ | ⟨-, hhead, -⟩ | ⟨hname, json, v, -, rfl⟩
      · exact .inl hprimitive
      · -- `join` hands on what its first argument yields.
        cases args with
        | nil =>
            cases hargs
            cases hhead
        | cons arg rest =>
            obtain ⟨first, after, others, hfirst, -, rfl⟩ := evalArgs_cons_eq_ok.mp hargs
            cases hhead
            rcases ih arg List.mem_cons_self hfirst with hprimitive | hsource
            · exact .inl hprimitive
            · have henter : (Frame.argument span callee [] rest).Enters Builtin.registry ctx
                  next next := .argument span callee rest (.nil next)
              exact .inr (hsource.inside henter)
      · have hmakes : (Expr.call span callee args).Makes ctx next [] v mid last :=
          ⟨span, callee, args, results, next, rfl, .here next, hname, hargs, hcall⟩
        exact .inr (.made hmakes .self)

/-- An expression that calls no `fromJSON` takes no identities. -/
theorem eval_keeps (hcalls : ∀ name ∈ e.calledNames, Text.lowercase name ≠ "fromjson")
    (h : e.eval Builtin.registry ctx next = .ok (r, last)) : next = last := by
  have hmoves : Moves (· = ·) (e.eval Builtin.registry ctx) :=
    eval_moves fun name hname => Builtin.call_keeps (hcalls name hname)
  exact hmoves next last r h

/-- An expression that calls no `fromJSON` yields the same when it is evaluated again. -/
theorem compare_self (hcalls : ∀ name ∈ e.calledNames, Text.lowercase name ≠ "fromjson")
    (h : e.eval Builtin.registry ctx next = .ok (r, last)) (span : Span) :
    (Expr.compare span .eq e e).eval Builtin.registry ctx next =
      .ok (.ofBool (r.equal r), next) := by
  cases eval_keeps hcalls h
  rw [eval, bind_of_ok h, bind_of_ok h]
  rfl

/-- What a call of `fromJSON` yields it has made. -/
theorem exists_makes {span : Span} {callee : Ident} {args : List Expr}
    (hname : Text.lowercase callee.name = "fromjson")
    (h : (Expr.call span callee args).eval Builtin.registry ctx next = .ok (r, last)) :
    ∃ first, (Expr.call span callee args).Makes ctx next [] r.value first last := by
  rw [eval, bind_eq_ok] at h
  obtain ⟨results, first, hargs, hcall⟩ := h
  have hclassified : r = .ofValue r.value := by
    rcases Builtin.call_ok_cases hcall with ⟨_, -, rfl, -⟩ | ⟨hjoin, -⟩ | ⟨-, _, _, -, rfl⟩
    · rfl
    · exact absurd (hname.symm.trans hjoin) (by decide)
    · rfl
  rw [hclassified] at hcall
  exact ⟨first, span, callee, args, results, next, rfl, .here next, hname, hargs, hcall⟩

/-- A container that a call of `fromJSON` has just made is equal to nothing that is yielded
after it. -/
theorem compare_made {span span' : Span} {callee : Ident} {args : List Expr} {e' : Expr}
    {r' : TypedValue} {start stop : Identity} (hbelow : ctx.Below next)
    (hname : Text.lowercase callee.name = "fromjson")
    (h : (Expr.call span callee args).eval Builtin.registry ctx next = .ok (r, last))
    (hcontainer : r.value.isPrimitive = false) (hstart : ctx.Below start)
    (h' : e'.eval Builtin.registry ctx start = .ok (r', stop)) :
    ∃ final, (Expr.compare span' .eq (.call span callee args) e').eval Builtin.registry ctx
      next = .ok (.ofBool false, final) := by
  obtain ⟨first, hmakes⟩ := exists_makes hname h
  have hfirst : next ≤ first := (hmakes.bounds h).1
  have hlast : ctx.Below last := by
    intro i hi
    exact Nat.lt_of_lt_of_le (hbelow i hi) (Builtin.eval_advances ctx _ next last r h)
  obtain ⟨s, hagain, -⟩ := eval_shift h' hstart hlast
  have hdiffer : r.equal s = false := by
    rw [TypedValue.equal_of_container hcontainer]
    apply Value.sameIdentity_eq_false
    intro i hi hi'
    have hmade := hmakes.within i hi
    rcases (eval_within hagain).2 i hi' with hheld | hlater
    · exact Nat.not_lt.mpr (Nat.le_trans hfirst hmade.1) (hbelow i hheld)
    · exact Nat.not_le.mpr hmade.2 hlater.1
  refine ⟨last + (stop - start), ?_⟩
  rw [eval, bind_of_ok h, bind_of_ok hagain, compareBy, hdiffer]
  rfl

/-- A container that an expression yields is one of the context, or one that a single call of
`fromJSON` in the run has made and nothing else has. So an expression without such a call is
equal to itself, but for not-a-number, and what such a call makes is equal to nothing else. -/
theorem identity_provenance {ctx : Context} {next : Identity} (hbelow : ctx.Below next) :
    (∀ (e : Expr) (r : TypedValue) (last : Identity),
      e.eval Builtin.registry ctx next = .ok (r, last) → r.value.isPrimitive = false →
        ctx.Holds r.value ∨
        ∃ (place : List Frame) (w : Value) (first done : Identity),
          e.Makes ctx next place w first done ∧ next ≤ first ∧ done ≤ last ∧
          r.value.Part w ∧
          (∀ i ∈ r.value.identities, i ∉ ctx.held ∧ first ≤ i ∧ i < done) ∧
          ∀ (place' : List Frame) (w' : Value) (first' done' : Identity), place ≠ place' →
            e.Makes ctx next place' w' first' done' →
              ∀ i ∈ r.value.identities, i ∉ w'.identities) ∧
    (∀ (e : Expr) (r : TypedValue) (last : Identity) (span : Span),
      (∀ name ∈ e.calledNames, Text.lowercase name ≠ "fromjson") →
      e.eval Builtin.registry ctx next = .ok (r, last) →
        (r.value ≠ .number .nan →
          (Expr.compare span .eq e e).eval Builtin.registry ctx next =
            .ok (.ofBool true, next)) ∧
        (r.value = .number .nan →
          (Expr.compare span .eq e e).eval Builtin.registry ctx next =
            .ok (.ofBool false, next))) ∧
    (∀ (span span' : Span) (callee : Ident) (args : List Expr) (e' : Expr)
      (r r' : TypedValue) (last start stop : Identity),
      Text.lowercase callee.name = "fromjson" →
      (Expr.call span callee args).eval Builtin.registry ctx next = .ok (r, last) →
      r.value.isPrimitive = false → ctx.Below start →
      e'.eval Builtin.registry ctx start = .ok (r', stop) →
        ∃ final, (Expr.compare span' .eq (.call span callee args) e').eval Builtin.registry ctx
          next = .ok (.ofBool false, final)) := by
  refine ⟨?_, ?_, ?_⟩
  · intro e r last h hcontainer
    rcases eval_source h with hprimitive | hheld | @⟨place, w, first, done, hmakes, hpart⟩
    · rw [hprimitive] at hcontainer
      cases hcontainer
    · exact .inl hheld
    · obtain ⟨hfirst, hdone⟩ := hmakes.bounds h
      refine .inr ⟨place, w, first, done, hmakes, hfirst, hdone, hpart, ?_, ?_⟩
      · intro i hi
        have hmade := hmakes.within i (hpart.mem_identities hi)
        have hnew : next ≤ i := Nat.le_trans hfirst hmade.1
        exact ⟨fun hheld => Nat.not_lt.mpr hnew (hbelow i hheld), hmade⟩
      · intro place' w' first' done' hplace hmakes' i hi hi'
        have hmade := hmakes.within i (hpart.mem_identities hi)
        have hmade' := hmakes'.within i hi'
        rcases hmakes.apart hmakes' hplace h with hbefore | hafter
        · exact Nat.not_le.mpr hmade.2 (Nat.le_trans hbefore hmade'.1)
        · exact Nat.not_le.mpr hmade'.2 (Nat.le_trans hafter hmade.1)
  · intro e r last span hcalls h
    have hcompare := compare_self hcalls h span
    constructor
    · intro hvalue
      rw [hcompare, TypedValue.equal_self hvalue]
    · intro hvalue
      rw [hcompare, TypedValue.equal_nan hvalue]
  · intro span span' callee args e' r r' last start stop hname h hcontainer hstart h'
    exact compare_made hbelow hname h hcontainer hstart h'

/-- The expression `fromJSON('[]')`. -/
def madeArray : Expr :=
  .call .nowhere ⟨"fromJSON", .nowhere⟩ [.string .nowhere "[]"]

theorem eval_madeArray (ctx : Context) (next : Identity) :
    madeArray.eval Builtin.registry ctx next = .ok (.ofValue (.array next []), next + 1) := by
  have hargs : evalArgs Builtin.registry ctx [.string .nowhere "[]"] next =
      .ok ([.ofString "[]"], next) := rfl
  have hparse : Json.parse "[]" = .ok (.array []) := rfl
  rw [madeArray, eval, bind_of_ok hargs, Builtin.call_fromJson, hparse]
  rfl

/-- The array that is made is not the one of the context, which is equal to itself. -/
theorem identity_provenance_array :
    arrayContext.Below 1 ∧
    (∃ place w first done, madeArray.Makes arrayContext 1 place w first done ∧
      (Value.array 1 []).Part w) ∧
    (Expr.compare .nowhere .eq (.var .nowhere "x") (.var .nowhere "x")).eval Builtin.registry
      arrayContext 1 = .ok (.ofBool true, 1) ∧
    ∃ final, (Expr.compare .nowhere .eq madeArray (.var .nowhere "x")).eval Builtin.registry
      arrayContext 1 = .ok (.ofBool false, final) := by
  have hlower : Text.lowercase "fromJSON" = "fromjson" := by decide +kernel
  have hvar : (Expr.var .nowhere "x").eval Builtin.registry arrayContext 1 =
      .ok (.ofValue (.array 0 [.bool true]), 1) := rfl
  have hmade := eval_madeArray arrayContext 1
  obtain ⟨hsource, hself, hdiffer⟩ := identity_provenance arrayContext_below
  refine ⟨arrayContext_below, ?_, ?_, ?_⟩
  · rcases hsource _ _ _ hmade rfl with hheld | ⟨place, w, first, done, hmakes, -, -, hpart, -⟩
    · obtain ⟨name, w, hget, hpart⟩ := hheld
      have hused : 1 ∈ arrayContext.held :=
        ⟨name, w, hget, hpart.mem_identities List.mem_cons_self⟩
      exact absurd (arrayContext_below 1 hused) (Nat.lt_irrefl 1)
    · exact ⟨place, w, first, done, hmakes, hpart⟩
  · refine (hself _ _ _ .nowhere ?_ hvar).1 ?_
    · intro name hname
      cases hname
    · intro heq
      cases heq
  · exact hdiffer _ _ _ _ _ _ _ _ _ _ hlower hmade rfl arrayContext_below hvar

end Expr

end WorkflowExpr
