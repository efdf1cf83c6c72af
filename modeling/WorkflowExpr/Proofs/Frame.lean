import WorkflowExpr.Proofs.Induction
import WorkflowExpr.Proofs.Steps

/-!
Places in expressions. A frame is one node with one of its parts left out, and a place in an
expression is the list of the frames around it. Evaluation comes to a place when it enters
all of these frames, which depends on what stands to the left of the place but not on what
stands in it. Every error is raised at a place that evaluation comes to.
-/

namespace WorkflowExpr

open Eval Evaluation

/-- The left side of a logical operator leaves the answer open when it is true beside `&&` and
false beside `||`. -/
theorem Eval.decidedBy?_eq_none {op : LogicalOp} {l : TypedValue} :
    decidedBy? op l = none ↔ l.truthy = (op == .and) := by
  cases op <;> cases h : l.falsy <;> simp [decidedBy?, TypedValue.truthy, h]

/-- Expressions that evaluate one after the other, each with a result, from one unused identity
to another. -/
inductive Expr.Succeed (registry : Registry) (ctx : Context) :
    List Expr → Identity → Identity → Prop where
  | nil (next : Identity) : Succeed registry ctx [] next next
  | cons {e : Expr} {es : List Expr} {r : TypedValue} {next mid now : Identity}
      (he : e.eval registry ctx next = .ok (r, mid)) (hes : Succeed registry ctx es mid now) :
      Succeed registry ctx (e :: es) next now

/-- The arguments of a call have results when each of them has one. -/
theorem Expr.succeed_iff {registry : Registry} {ctx : Context} {es : List Expr}
    {next now : Identity} :
    Succeed registry ctx es next now ↔
      ∃ results, evalArgs registry ctx es next = .ok (results, now) := by
  constructor
  · intro h
    induction h with
    | nil next => exact ⟨[], rfl⟩
    | cons he _ ih =>
        obtain ⟨results, hes⟩ := ih
        exact ⟨_, evalArgs_cons_eq_ok.mpr ⟨_, _, results, he, hes, rfl⟩⟩
  · rintro ⟨results, h⟩
    induction es generalizing next results with
    | nil =>
        cases h
        exact .nil now
    | cons e es ih =>
        obtain ⟨r, mid, rest, he, hes, -⟩ := evalArgs_cons_eq_ok.mp h
        exact .cons he (ih rest hes)

/-- A node of an expression without one of its parts. -/
inductive Frame where
  | property (span : Span) (name : Ident)
  | indexOperand (span : Span) (position : Expr)
  | indexPosition (span : Span) (operand : Expr)
  | not (span : Span)
  | compareLeft (span : Span) (op : CompareOp) (right : Expr)
  | compareRight (span : Span) (op : CompareOp) (left : Expr)
  | logicalLeft (span : Span) (op : LogicalOp) (right : Expr)
  | logicalRight (span : Span) (op : LogicalOp) (left : Expr)
  | argument (span : Span) (callee : Ident) (before after : List Expr)

namespace Frame

def plug : Frame → Expr → Expr
  | .property span name, e => .property span e name
  | .indexOperand span position, e => .index span e position
  | .indexPosition span operand, e => .index span operand e
  | .not span, e => .not span e
  | .compareLeft span op right, e => .compare span op e right
  | .compareRight span op left, e => .compare span op left e
  | .logicalLeft span op right, e => .logical span op e right
  | .logicalRight span op left, e => .logical span op left e
  | .argument span callee before after, e => .call span callee (before ++ e :: after)

/-- An expression inside frames, the outermost frame first. -/
def fill (frames : List Frame) (e : Expr) : Expr := frames.foldr plug e

@[simp] theorem fill_cons (frame : Frame) (frames : List Frame) (e : Expr) :
    fill (frame :: frames) e = frame.plug (fill frames e) := rfl

/-- When evaluation of a node comes to the part left out, and with which identity unused. The
right side of `&&` is evaluated beside a true left side, and that of `||` beside a false one. -/
inductive Enters (registry : Registry) (ctx : Context) :
    Frame → Identity → Identity → Prop where
  | property {next : Identity} (span : Span) (name : Ident) :
      Enters registry ctx (.property span name) next next
  | indexOperand {next : Identity} (span : Span) (position : Expr) :
      Enters registry ctx (.indexOperand span position) next next
  | indexPosition {operand : Expr} {r : TypedValue} {next now : Identity} (span : Span)
      (hoperand : operand.eval registry ctx next = .ok (r, now))
      (harray : r.value.tag = .array) :
      Enters registry ctx (.indexPosition span operand) next now
  | not {next : Identity} (span : Span) : Enters registry ctx (.not span) next next
  | compareLeft {next : Identity} (span : Span) (op : CompareOp) (right : Expr) :
      Enters registry ctx (.compareLeft span op right) next next
  | compareRight {left : Expr} {l : TypedValue} {next now : Identity} (span : Span)
      (op : CompareOp) (hleft : left.eval registry ctx next = .ok (l, now)) :
      Enters registry ctx (.compareRight span op left) next now
  | logicalLeft {next : Identity} (span : Span) (op : LogicalOp) (right : Expr) :
      Enters registry ctx (.logicalLeft span op right) next next
  | logicalRight {op : LogicalOp} {left : Expr} {l : TypedValue} {next now : Identity}
      (span : Span) (hleft : left.eval registry ctx next = .ok (l, now))
      (hopen : l.truthy = (op == .and)) :
      Enters registry ctx (.logicalRight span op left) next now
  | argument {before : List Expr} {next now : Identity} (span : Span) (callee : Ident)
      (after : List Expr) (hbefore : Expr.Succeed registry ctx before next now) :
      Enters registry ctx (.argument span callee before after) next now

/-- When evaluation of an expression comes to the place inside the frames. -/
inductive Reached (registry : Registry) (ctx : Context) :
    List Frame → Identity → Identity → Prop where
  | here (next : Identity) : Reached registry ctx [] next next
  | inside {frame : Frame} {frames : List Frame} {next mid now : Identity}
      (henter : frame.Enters registry ctx next mid)
      (hinside : Reached registry ctx frames mid now) :
      Reached registry ctx (frame :: frames) next now

end Frame

namespace Expr

/-- Evaluation of an expression comes to a part of it, at some place. -/
def Visits (registry : Registry) (ctx : Context) (e : Expr) (next : Identity) (part : Expr)
    (now : Identity) : Prop :=
  ∃ frames, Frame.fill frames part = e ∧ Frame.Reached registry ctx frames next now

/-- An error that a node raises itself, after its parts have been evaluated. -/
inductive Raises (registry : Registry) (ctx : Context) :
    Expr → Identity → EvalError → Prop where
  | var {name : String} (span : Span) (now : Identity) (hname : ctx.get? name = none) :
      Raises registry ctx (.var span name) now (.unknownVariable name)
  | property {receiver : Expr} {name : Ident} {r : TypedValue} {now mid : Identity}
      {error : EvalError} (span : Span)
      (hreceiver : receiver.eval registry ctx now = .ok (r, mid))
      (herror : propertyValue r.value name.name mid = .error error) :
      Raises registry ctx (.property span receiver name) now error
  | notIndexable {operand : Expr} {r : TypedValue} {now mid : Identity} {error : EvalError}
      (span : Span) (position : Expr) (hoperand : operand.eval registry ctx now = .ok (r, mid))
      (herror : indexable r.value mid = .error error) :
      Raises registry ctx (.index span operand position) now error
  | noItem {operand position : Expr} {r i : TypedValue} {items : List Value}
      {now mid last : Identity} {error : EvalError} (span : Span)
      (hoperand : operand.eval registry ctx now = .ok (r, mid))
      (hitems : indexable r.value mid = .ok (items, mid))
      (hposition : position.eval registry ctx mid = .ok (i, last))
      (herror : itemAt items i.value.toNumber last = .error error) :
      Raises registry ctx (.index span operand position) now error
  | call {callee : Ident} {args : List Expr} {results : List TypedValue}
      {now mid : Identity} {error : EvalError} (span : Span)
      (hargs : evalArgs registry ctx args now = .ok (results, mid))
      (herror : registry.call callee.name results mid = .error error) :
      Raises registry ctx (.call span callee args) now error

variable {registry : Registry} {ctx : Context} {e part : Expr} {args : List Expr}
  {next mid now : Identity} {error : EvalError}

theorem Visits.here (e : Expr) (next : Identity) : e.Visits registry ctx next e next :=
  ⟨[], rfl, .here next⟩

/-- What evaluation comes to in a part that it comes to, it comes to in the whole. -/
theorem Visits.inside {frame : Frame} (henter : frame.Enters registry ctx next mid)
    (h : e.Visits registry ctx mid part now) :
    (frame.plug e).Visits registry ctx next part now := by
  obtain ⟨frames, rfl, hreached⟩ := h
  exact ⟨frame :: frames, rfl, .inside henter hreached⟩

/-- An error comes from a node that evaluation of an expression comes to. -/
def Originates (registry : Registry) (ctx : Context) (e : Expr) (next : Identity)
    (error : EvalError) : Prop :=
  ∃ part now, e.Visits registry ctx next part now ∧ Raises registry ctx part now error

theorem Originates.here (h : Raises registry ctx e next error) :
    e.Originates registry ctx next error :=
  ⟨e, next, .here e next, h⟩

theorem Originates.inside {frame : Frame} (h : e.Originates registry ctx mid error)
    (henter : frame.Enters registry ctx next mid) :
    (frame.plug e).Originates registry ctx next error := by
  obtain ⟨part, now, hvisits, hraises⟩ := h
  exact ⟨part, now, hvisits.inside henter, hraises⟩

/-- Arguments fail where one of them fails and all before it succeed. -/
theorem evalArgs_eq_error (h : evalArgs registry ctx args next = .error error) :
    ∃ before arg after now, args = before ++ arg :: after ∧
      Succeed registry ctx before next now ∧ arg.eval registry ctx now = .error error := by
  induction args generalizing next with
  | nil => cases h
  | cons first rest ih =>
      simp only [evalArgs, bind_eq_error, pure_run, reduceCtorEq, and_false, exists_false,
        or_false] at h
      rcases h with hfirst | ⟨r, mid, hfirst, hrest⟩
      · exact ⟨[], first, rest, next, rfl, .nil next, hfirst⟩
      · obtain ⟨before, arg, after, now, rfl, hbefore, harg⟩ := ih hrest
        exact ⟨first :: before, arg, after, now, rfl, .cons hfirst hbefore, harg⟩

/-- Every error of an evaluation is raised at a node that the evaluation comes to. -/
theorem error_origin (h : e.eval registry ctx next = .error error) :
    e.Originates registry ctx next error := by
  induction e generalizing next with
  | null | bool | int | float | string =>
      simp only [eval, pure_run] at h
      cases h
  | var span name =>
      obtain ⟨hname, rfl⟩ := variableValue_eq_error.mp h
      exact .here (.var span next hname)
  | property span receiver name ih =>
      rw [eval, bind_eq_error] at h
      rcases h with hreceiver | ⟨r, mid, hreceiver, herror⟩
      · exact (ih hreceiver).inside (.property span name)
      · exact .here (.property span hreceiver herror)
  | index span operand position ihoperand ihposition =>
      simp only [eval, bind_eq_error] at h
      rcases h with hoperand | ⟨r, mid, hoperand, hshape | ⟨items, _, hitems, h⟩⟩
      · exact (ihoperand hoperand).inside (.indexOperand span position)
      · exact .here (.notIndexable span position hoperand hshape)
      obtain ⟨identity, hvalue, rfl⟩ := indexable_eq_ok.mp hitems
      rcases h with hposition | ⟨i, last, hposition, herror⟩
      · have harray : r.value.tag = .array := by rw [hvalue, Value.tag]
        exact (ihposition hposition).inside (.indexPosition span hoperand harray)
      · exact .here (.noItem span hoperand hitems hposition herror)
  | not span operand ih =>
      rw [eval, bind_eq_error] at h
      rcases h with hoperand | ⟨r, mid, -, herror⟩
      · exact (ih hoperand).inside (.not span)
      · cases herror
  | compare span op left right ihleft ihright =>
      simp only [eval, bind_eq_error] at h
      rcases h with hleft | ⟨l, mid, hleft, hright | ⟨r, last, -, herror⟩⟩
      · exact (ihleft hleft).inside (.compareLeft span op right)
      · exact (ihright hright).inside (.compareRight span op hleft)
      · cases herror
  | logical span op left right ihleft ihright =>
      rw [eval, bind_eq_error] at h
      rcases h with hleft | ⟨l, mid, hleft, h⟩
      · exact (ihleft hleft).inside (.logicalLeft span op right)
      cases hdecided : decidedBy? op l with
      | some b =>
          rw [hdecided] at h
          cases h
      | none =>
          simp only [hdecided, bind_eq_error] at h
          rcases h with hright | ⟨r, last, -, herror⟩
          · have hopen := decidedBy?_eq_none.mp hdecided
            exact (ihright hright).inside (.logicalRight span hleft hopen)
          · cases herror
  | call span callee args ih =>
      rw [eval, bind_eq_error] at h
      rcases h with hargs | ⟨results, mid, hargs, herror⟩
      · obtain ⟨before, arg, after, now, rfl, hbefore, harg⟩ := evalArgs_eq_error hargs
        exact (ih arg (by simp) harg).inside (.argument span callee after hbefore)
      · exact .here (.call span hargs herror)

end Expr

end WorkflowExpr
