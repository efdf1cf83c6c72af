import WorkflowExpr.Proofs.Calls
import WorkflowExpr.Proofs.Induction
import WorkflowExpr.Proofs.Steps

/-!
The types of results. With functions that keep types consistent, every result of evaluation
has a type that says nothing false about its value. With the built-in functions the type is
exactly that of the value's kind, save for one result, null of unknown type, which comes from
an index that is no number and passes unchanged through calls of `join`.
-/

namespace WorkflowExpr

/-- Whether a function gives only consistent results for consistent arguments, as far as it
takes so many. -/
def Callable.KeepsConsistent (callable : Callable) : Prop :=
  ∀ args : List TypedValue, callable.arity.accepts args.length = true →
    (∀ arg ∈ args, arg.Consistent) →
      ∀ next r last, callable.body args next = .ok (r, last) → r.Consistent

/-- Whether all functions that can be called give only consistent results for consistent
arguments. -/
def Registry.KeepsConsistent (registry : Registry) : Prop :=
  ∀ name callable, registry.get? name = some callable → callable.KeepsConsistent

def TypedValue.Classified (r : TypedValue) : Prop := r.ty = r.value.classify

theorem TypedValue.Classified.consistent {r : TypedValue} (h : r.Classified) : r.Consistent := by
  right
  rw [show r.ty = r.value.classify from h, Value.tag_classify]

/-- The roots at which null of unknown type can come out: an index, and a call of `join`, in
any case, on a first argument that has this result for the same reason. -/
inductive FindsNothing (ctx : Context) : Expr → Identity → Prop where
  | index (span : Span) (operand position : Expr) (next : Identity) :
      FindsNothing ctx (.index span operand position) next
  | join {callee : Ident} {first : Expr} {next mid : Identity} (span : Span) (rest : List Expr)
      (hname : Text.lowercase callee.name = "join")
      (heval : first.eval Builtin.registry ctx next = .ok (.unknown, mid))
      (hfirst : FindsNothing ctx first next) :
      FindsNothing ctx (.call span callee (first :: rest)) next

open Evaluation

variable {registry : Registry} {ctx : Context} {e : Expr} {r : TypedValue}
  {next last : Identity}

/-- A call gives a consistent result for consistent arguments, whatever happens in it. -/
theorem Registry.KeepsConsistent.call (hregistry : registry.KeepsConsistent) {name : String}
    {args : List TypedValue} (hargs : ∀ arg ∈ args, arg.Consistent)
    (h : registry.call name args next = .ok (r, last)) : r.Consistent := by
  cases hget : registry.get? name with
  | none =>
      rw [call_of_none hget] at h
      cases h
  | some callable =>
      cases haccepts : callable.arity.accepts args.length with
      | false =>
          rw [call_of_refused hget haccepts] at h
          cases h
      | true =>
          rw [call_of_accepted hget haccepts] at h
          exact hregistry name callable hget args haccepts hargs next r last h

theorem Expr.eval_consistent_of_keeps (hregistry : registry.KeepsConsistent)
    (h : e.eval registry ctx next = .ok (r, last)) : r.Consistent := by
  induction e generalizing next r last with
  | call span callee args ih =>
      rcases eval_ok_cases h with ⟨v, rfl⟩ | ⟨rfl, -⟩ | ⟨_, _, _, results, mid, heq, hargs, hcall⟩
      · exact TypedValue.consistent_ofValue v
      · exact TypedValue.consistent_unknown
      · cases heq
        refine hregistry.call ?_ hcall
        intro result member
        obtain ⟨arg, harg, before, after, heval⟩ := mem_of_evalArgs hargs result member
        exact ih arg harg heval
  | _ =>
      rcases eval_ok_cases h with ⟨v, rfl⟩ | ⟨rfl, -⟩ | ⟨_, _, _, _, _, heq, -⟩
      · exact TypedValue.consistent_ofValue v
      · exact TypedValue.consistent_unknown
      · cases heq

namespace Builtin

/-- A built-in function gives a result with the type of its kind, or is `join` and hands its
first argument on. -/
theorem body_classified {callable : Callable} {args : List TypedValue}
    (member : callable ∈ callables) (haccepts : callable.arity.accepts args.length = true)
    (h : callable.body args next = .ok (r, last)) :
    r.Classified ∨ callable.name = "join" ∧ args.head? = some r := by
  rcases body_ok_cases member haccepts h with
    ⟨v, -, rfl, -⟩ | ⟨hjoin, hhead, -⟩ | ⟨-, first, json, v, -, -, -, rfl⟩
  · exact .inl rfl
  · exact .inr ⟨hjoin, hhead⟩
  · exact .inl rfl

theorem registry_keepsConsistent : Builtin.registry.KeepsConsistent := by
  intro name callable hget args haccepts hargs next r last h
  rcases body_classified (get?_eq_some hget).1 haccepts h with hr | ⟨-, hhead⟩
  · exact hr.consistent
  · exact hargs r (List.mem_of_head? hhead)

theorem call_classified {name : String} {args : List TypedValue}
    (h : Builtin.registry.call name args next = .ok (r, last)) :
    r.Classified ∨ Text.lowercase name = "join" ∧ args.head? = some r := by
  obtain ⟨callable, member, hname, haccepts, hbody⟩ := exists_body_of_call h
  rcases body_classified member haccepts hbody with hr | ⟨hjoin, hhead⟩
  · exact .inl hr
  · have hlower : Text.lowercase "join" = "join" := by decide +kernel
    exact .inr ⟨by rw [← hname, hjoin, hlower], hhead⟩

end Builtin

/-- With the built-in functions a result has the type of its kind, or it is null of unknown
type from an index below nothing but calls of `join`. -/
theorem Expr.eval_classified (h : e.eval Builtin.registry ctx next = .ok (r, last)) :
    r.Classified ∨ r = .unknown ∧ FindsNothing ctx e next := by
  induction e generalizing next r last with
  | call span callee args ih =>
      rcases eval_ok_cases h with
        ⟨v, rfl⟩ | ⟨-, _, _, _, heq⟩ | ⟨_, _, _, results, mid, heq, hargs, hcall⟩
      · exact .inl rfl
      · cases heq
      · cases heq
        rcases Builtin.call_classified hcall with hr | ⟨hname, hhead⟩
        · exact .inl hr
        · cases args with
          | nil =>
              cases hargs
              cases hhead
          | cons first rest =>
              obtain ⟨result, after, _, heval, -, rfl⟩ := evalArgs_cons_eq_ok.mp hargs
              cases hhead
              rcases ih first List.mem_cons_self heval with hr | ⟨rfl, hfirst⟩
              · exact .inl hr
              · exact .inr ⟨rfl, .join span rest hname heval hfirst⟩
  | index span operand position =>
      rcases eval_ok_cases h with ⟨v, rfl⟩ | ⟨rfl, -⟩ | ⟨_, _, _, _, _, heq, -⟩
      · exact .inl rfl
      · exact .inr ⟨rfl, .index span operand position next⟩
      · cases heq
  | _ =>
      rcases eval_ok_cases h with ⟨v, rfl⟩ | ⟨-, _, _, _, heq⟩ | ⟨_, _, _, _, _, heq, -⟩
      · exact .inl rfl
      · cases heq
      · cases heq

/-- Results have honest types. Whatever functions are registered, if they keep types
consistent then so does evaluation. With the built-in ones a type is exactly that of the
value's kind, or the result is null of unknown type, which has to come from an index. -/
theorem Expr.eval_type_sound :
    (∀ (registry : Registry) (ctx : Context) (e : Expr) (next : Identity) (r : TypedValue)
      (last : Identity), registry.KeepsConsistent →
        e.eval registry ctx next = .ok (r, last) → r.Consistent) ∧
    (∀ (ctx : Context) (e : Expr) (next : Identity) (r : TypedValue) (last : Identity),
      e.eval Builtin.registry ctx next = .ok (r, last) →
        r.ty = r.value.classify ∨ r = .unknown ∧ FindsNothing ctx e next) :=
  ⟨fun _ _ _ _ _ _ hregistry h => eval_consistent_of_keeps hregistry h,
    fun _ _ _ _ _ h => eval_classified h⟩

def arrayContext : Context := .ofList [("x", .array 0 [.bool true])]

/-- The expression `x['a']`, which finds nothing. -/
def itemAtLetter : Expr := .index .nowhere (.var .nowhere "x") (.string .nowhere "a")

theorem eval_itemAtLetter (registry : Registry) (next : Identity) :
    itemAtLetter.eval registry arrayContext next = .ok (.unknown, next) := by
  have hread : Numeral.read "a" = .nan := by decide +kernel
  have hitem : Eval.itemAt [.bool true] (Numeral.read "a") next = .ok (.unknown, next) := by
    rw [hread]
    rfl
  exact hitem

/-- Null of unknown type passes through a call of `join`. -/
theorem Expr.eval_type_sound_join :
    Builtin.registry.KeepsConsistent ∧
      (Expr.call .nowhere ⟨"JOIN", .nowhere⟩ [itemAtLetter]).eval Builtin.registry arrayContext 1 =
        .ok (.unknown, 1) ∧
      TypedValue.unknown.Consistent ∧
      (TypedValue.unknown.ty = TypedValue.unknown.value.classify ∨
        TypedValue.unknown = .unknown ∧
          FindsNothing arrayContext (.call .nowhere ⟨"JOIN", .nowhere⟩ [itemAtLetter]) 1) := by
  have hargs : evalArgs Builtin.registry arrayContext [itemAtLetter] 1 = .ok ([.unknown], 1) :=
    evalArgs_cons_eq_ok.mpr ⟨_, _, _, eval_itemAtLetter _ 1, rfl, rfl⟩
  have member : ⟨"join", .atLeast 1, Builtin.join⟩ ∈ Builtin.callables := by
    simp [Builtin.callables]
  have hcall : Builtin.registry.call "JOIN" [.unknown] = Builtin.join [.unknown] :=
    Builtin.call_of_mem member (by decide +kernel) rfl
  have heval : (Expr.call .nowhere ⟨"JOIN", .nowhere⟩ [itemAtLetter]).eval Builtin.registry
      arrayContext 1 = .ok (.unknown, 1) := by
    rw [eval, bind_of_ok hargs, hcall]
    rfl
  exact ⟨Builtin.registry_keepsConsistent, heval,
    eval_type_sound.1 _ _ _ _ _ _ Builtin.registry_keepsConsistent heval,
    eval_type_sound.2 _ _ _ _ _ heval⟩

end WorkflowExpr
