import WorkflowExpr.Proofs.Calls
import WorkflowExpr.Proofs.Frame

/-!
What an error tells about the expression it came from. With the built-in functions every
error names a node that evaluation came to, and what was wrong there: a name that is not
bound, a value of the wrong kind, a number outside the items, a function that does not exist
or does not take so many arguments, a template or a JSON text with a fault. An inconsistency
is never reported.
-/

namespace WorkflowExpr

open Eval Evaluation

/-- What an error says of an expression that was evaluated in a context. Every node named is
one that the evaluation came to. -/
def EvalError.Explains (ctx : Context) (e : Expr) (next : Identity) : EvalError → Prop
  | .unknownVariable name =>
      ctx.get? name = none ∧
        ∃ span now, e.Visits Builtin.registry ctx next (.var span name) now
  | .unknownProperty name =>
      ∃ span receiver ident now, ident.name = name ∧
        e.Visits Builtin.registry ctx next (.property span receiver ident) now
  | .typeMismatch (.property name found) =>
      ∃ span receiver ident now r mid, ident.name = name ∧
        e.Visits Builtin.registry ctx next (.property span receiver ident) now ∧
        receiver.eval Builtin.registry ctx now = .ok (r, mid) ∧
        r.value.tag = found ∧ found ≠ .object
  | .typeMismatch (.index found) =>
      ∃ span operand position now r mid,
        e.Visits Builtin.registry ctx next (.index span operand position) now ∧
        operand.eval Builtin.registry ctx now = .ok (r, mid) ∧
        r.value.tag = found ∧ found ≠ .array
  | .typeMismatch (.other _) => False
  | .indexOutOfRange index length =>
      index.isNaN = false ∧
        (index.isNegative = true ∨ index.isInfinite = true ∨
          ∃ whole, index.floorAbs? = some whole ∧ length ≤ whole) ∧
        ∃ span operand position now,
          e.Visits Builtin.registry ctx next (.index span operand position) now
  | .unknownFunction name =>
      Text.lowercase name ∉ Builtin.lowerNames ∧
        ∃ span callee args now, callee.name = name ∧
          e.Visits Builtin.registry ctx next (.call span callee args) now
  | .arityMismatch function expected given =>
      expected.accepts given = false ∧
        (∃ callable ∈ Builtin.callables,
          Text.lowercase callable.name = Text.lowercase function ∧ callable.arity = expected) ∧
        ∃ span callee args now, callee.name = function ∧ args.length = given ∧
          e.Visits Builtin.registry ctx next (.call span callee args) now
  | .invalidArgument function _ =>
      (function = "format" ∨ function = "fromJSON") ∧
        ∃ span callee args now, Text.lowercase callee.name = Text.lowercase function ∧
          e.Visits Builtin.registry ctx next (.call span callee args) now
  | .internal _ => False

variable {ctx : Context} {e : Expr} {args : List Expr} {next now : Identity}
  {error : EvalError}

theorem Binary64.isInfinite_of_floorAbs?_eq_none {x : Binary64} (hnan : x.isNaN = false)
    (hfloor : x.floorAbs? = none) : x.isInfinite = true := by
  cases x with
  | nan => cases hnan
  | infinite negative => rfl
  | finite negative m => cases hfloor

theorem Expr.length_of_evalArgs {registry : Registry} {results : List TypedValue}
    {last : Identity} (h : evalArgs registry ctx args next = .ok (results, last)) :
    results.length = args.length := by
  induction args generalizing next results with
  | nil =>
      cases h
      rfl
  | cons arg args ih =>
      obtain ⟨r, mid, rest, -, hrest, rfl⟩ := evalArgs_cons_eq_ok.mp h
      rw [List.length_cons, List.length_cons, ih hrest]

namespace Builtin

/-- Where the built-in functions fail: only the two that read a text of their own fail, and
both name themselves. -/
theorem body_error {callable : Callable} {args : List TypedValue}
    (member : callable ∈ callables) (haccepts : callable.arity.accepts args.length = true)
    (h : callable.body args now = .error error) :
    ∃ rejection, error = .invalidArgument callable.name rejection ∧
      (callable.name = "format" ∨ callable.name = "fromJSON") := by
  revert h
  refine accepted_cases (motive := fun name body args => body args now = .error error →
    ∃ rejection, error = .invalidArgument name rejection ∧
      (name = "format" ∨ name = "fromJSON")) ?_ ?_ ?_ ?_ ?_ ?_ ?_ member haccepts
  · intro whole part h
    rw [startsWith_pair] at h
    cases h
  · intro whole part h
    rw [endsWith_pair] at h
    cases h
  · intro whole part h
    rw [contains_pair] at h
    cases h
  · intro first rest h
    rw [join_cons] at h
    cases h
  · intro first rest h
    rw [format_cons] at h
    cases hexpand : Template.expand (rest.map TypedValue.toText) first.toText.toList <;>
      rw [hexpand] at h <;> cases h
    exact ⟨_, rfl, .inl rfl⟩
  · intro first h
    rw [toJson_one] at h
    cases h
  · intro first h
    rw [fromJson_one] at h
    cases hparse : Json.parse first.toText <;> rw [hparse] at h <;> cases h
    exact ⟨_, rfl, .inr rfl⟩

end Builtin

theorem Expr.Visits.explains_call {span : Span} {callee : Ident} {results : List TypedValue}
    {mid : Identity}
    (hvisits : e.Visits Builtin.registry ctx next (.call span callee args) now)
    (hargs : evalArgs Builtin.registry ctx args now = .ok (results, mid))
    (herror : Builtin.registry.call callee.name results mid = .error error) :
    error.Explains ctx e next := by
  rcases Builtin.call_cases callee.name results with
    ⟨hno, hcall⟩ | ⟨callable, member, hname, ⟨hrefused, hcall⟩ | ⟨haccepts, hcall⟩⟩
  · rw [hcall] at herror
    cases herror
    exact ⟨hno, span, callee, args, now, rfl, hvisits⟩
  · rw [hcall] at herror
    cases herror
    exact ⟨hrefused, ⟨callable, member, hname, rfl⟩, span, callee, args, now, rfl,
      (length_of_evalArgs hargs).symm, hvisits⟩
  · rw [hcall] at herror
    obtain ⟨rejection, rfl, hfunction⟩ := Builtin.body_error member haccepts herror
    exact ⟨hfunction, span, callee, args, now, hname.symm, hvisits⟩

/-- What a node that is visited reports is explained by it. -/
theorem Expr.Visits.explains {part : Expr}
    (hvisits : e.Visits Builtin.registry ctx next part now)
    (hraises : Raises Builtin.registry ctx part now error) : error.Explains ctx e next := by
  cases hraises with
  | var span now hname => exact ⟨hname, span, now, hvisits⟩
  | property span hreceiver herror =>
      rcases propertyValue_eq_error.mp herror with ⟨_, _, _, _, rfl⟩ | ⟨hkind, rfl⟩
      · exact ⟨span, _, _, now, rfl, hvisits⟩
      · exact ⟨span, _, _, now, _, _, rfl, hvisits, hreceiver, rfl, hkind⟩
  | notIndexable span position hoperand herror =>
      obtain ⟨hkind, rfl⟩ := indexable_eq_error.mp herror
      exact ⟨span, _, position, now, _, _, hvisits, hoperand, rfl, hkind⟩
  | noItem span hoperand hitems hposition herror =>
      obtain ⟨hnan, houtside, rfl⟩ := itemAt_eq_error.mp herror
      refine ⟨hnan, ?_, span, _, _, now, hvisits⟩
      rcases houtside with hnegative | hfloor | hlarge
      · exact .inl hnegative
      · exact .inr (.inl (Binary64.isInfinite_of_floorAbs?_eq_none hnan hfloor))
      · exact .inr (.inr hlarge)
  | call span hargs herror => exact hvisits.explains_call hargs herror

/-- Every error of an evaluation with the built-in functions is explained by the expression
and the context. -/
theorem Expr.error_explained (ctx : Context) (e : Expr) (next : Identity) (error : EvalError)
    (h : e.eval Builtin.registry ctx next = .error error) : error.Explains ctx e next := by
  obtain ⟨part, now, hvisits, hraises⟩ := error_origin h
  exact hvisits.explains hraises

/-- The expression `!x.a`. -/
def negatedProperty : Expr :=
  .not .nowhere (.property .nowhere (.var .nowhere "x") ⟨"a", .nowhere⟩)

/-- A property of an array is refused, and the error leads back to the dereference. -/
theorem Expr.error_explained_property :
    negatedProperty.eval Builtin.registry (.ofList [("x", .array 0 [])]) 1 =
        .error (.typeMismatch (.property "a" .array)) ∧
      (EvalError.typeMismatch (.property "a" .array)).Explains
        (.ofList [("x", .array 0 [])]) negatedProperty 1 := by
  have heval : negatedProperty.eval Builtin.registry (.ofList [("x", .array 0 [])]) 1 =
      .error (.typeMismatch (.property "a" .array)) := rfl
  exact ⟨heval, error_explained _ _ _ _ heval⟩

end WorkflowExpr
