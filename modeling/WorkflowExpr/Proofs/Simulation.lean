import Mathlib.Data.List.Forall2
import WorkflowExpr.Proofs.Calls
import WorkflowExpr.Proofs.Fields
import WorkflowExpr.Proofs.Identity
import WorkflowExpr.Proofs.Variables

/-!
Evaluation does not depend on which identities are in use. Two runs of an expression, from
contexts whose values differ by a renaming and from any two unused identities, fail with the
same error or yield results that differ by the same renaming. The relation between the runs
is carried through sequences of computations, so that each kind of node and each built-in
function adds one short case. How closely results have to agree beyond their values is a
parameter, and the functions called need only keep that agreement, so that the built-in ones
are one instance.
-/

namespace WorkflowExpr

/-- A renaming that keeps the identities of a set apart and carries the ones not yet used by a
run to the ones not yet used by another. -/
structure Renaming (ρ : Identity → Identity) (S : Set Identity) (next next' : Identity) :
    Prop where
  injOn : Set.InjOn ρ S
  covers : ∀ i, next ≤ i → i ∈ S
  shifts : ∀ k, ρ (next + k) = next' + k

/-- The result of one run is that of another up to a renaming. Null of unknown type may be
plain null in the other run. -/
structure TypedValue.Corresponds (ρ : Identity → Identity) (S : Set Identity)
    (r r' : TypedValue) : Prop where
  value : r'.value = r.value.rename ρ
  within : r.value.Within S
  ty : r'.ty = r.ty ∨ r = .unknown ∧ r'.ty = .null

/-- The result of one run is that of another up to a renaming, with the same type. -/
structure TypedValue.Renamed (ρ : Identity → Identity) (S : Set Identity) (r r' : TypedValue) :
    Prop where
  eq : r' = ⟨r.value.rename ρ, r.ty⟩
  within : r.value.Within S

/-- What a relation between the results of two runs needs for evaluation to keep it: it only
relates corresponding results, and it relates whatever evaluation makes itself. -/
structure TypedValue.Relates (ρ : Identity → Identity) (S : Set Identity)
    (R : TypedValue → TypedValue → Prop) : Prop where
  corresponds : ∀ {r r' : TypedValue}, R r r' → Corresponds ρ S r r'
  ofValue : ∀ {v : Value}, v.Within S → R (.ofValue v) (.ofValue (v.rename ρ))
  unknown : R .unknown .unknown

/-- Two runs ended alike: with the same error, or with related results and so that the
renaming also fits what comes after. -/
inductive Outcomes {α β : Type} (ρ : Identity → Identity) (S : Set Identity)
    (R : α → β → Prop) : Except EvalError (α × Identity) → Except EvalError (β × Identity) → Prop
    where
  | error (error : EvalError) : Outcomes ρ S R (.error error) (.error error)
  | ok {a : α} {b : β} {last last' : Identity} (hrenaming : Renaming ρ S last last')
      (hrelated : R a b) : Outcomes ρ S R (.ok (a, last)) (.ok (b, last'))

/-- One computation does what another does, up to a renaming, from wherever it starts. -/
def Evaluation.Simulates {α β : Type} (ρ : Identity → Identity) (S : Set Identity)
    (R : α → β → Prop) (x : Evaluation α) (y : Evaluation β) : Prop :=
  ∀ next next', Renaming ρ S next next' → Outcomes ρ S R (x next) (y next')

/-- Two contexts bind a name to values that differ by a renaming, or both do not bind it. -/
def Context.CorrespondsAt (ρ : Identity → Identity) (S : Set Identity) (ctx ctx' : Context)
    (name : String) : Prop :=
  ctx'.get? name = (ctx.get? name).map (Value.rename ρ) ∧
    ∀ v, ctx.get? name = some v → v.Within S

variable {ρ : Identity → Identity} {S : Set Identity} {next next' : Identity}
  {r r' : TypedValue}

theorem Renaming.advance (h : Renaming ρ S next next') (k : Nat) :
    Renaming ρ S (next + k) (next' + k) where
  injOn := h.injOn
  covers i hi := h.covers i (Nat.le_trans (Nat.le_add_right next k) hi)
  shifts j := by rw [Nat.add_assoc, Nat.add_assoc, h.shifts]

theorem Renaming.next_eq (h : Renaming ρ S next next') : ρ next = next' := h.shifts 0

namespace TypedValue

theorem corresponds_ofValue {v : Value} (h : v.Within S) :
    Corresponds ρ S (ofValue v) (ofValue (v.rename ρ)) :=
  ⟨rfl, h, .inl (Value.classify_rename ρ v)⟩

/-- Values without parts have no identities. -/
theorem corresponds_of_isPrimitive {v : Value} (h : v.isPrimitive = true) :
    Corresponds ρ S (ofValue v) (ofValue v) := by
  cases v with
  | array | object => cases h
  | _ => exact ⟨rfl, Value.within_of_isPrimitive rfl, .inl rfl⟩

theorem corresponds_unknown : Corresponds ρ S unknown unknown :=
  ⟨rfl, Value.within_of_isPrimitive rfl, .inl rfl⟩

theorem corresponds_relates (ρ : Identity → Identity) (S : Set Identity) :
    Relates ρ S (Corresponds ρ S) :=
  ⟨id, corresponds_ofValue, corresponds_unknown⟩

theorem renamed_relates (ρ : Identity → Identity) (S : Set Identity) :
    Relates ρ S (Renamed ρ S) where
  corresponds {r r'} h := by
    obtain ⟨rfl, hwithin⟩ := h
    exact ⟨rfl, hwithin, .inl rfl⟩
  ofValue {v} h := ⟨by rw [ofValue, Value.classify_rename]; rfl, h⟩
  unknown := ⟨rfl, Value.within_of_isPrimitive rfl⟩

theorem Relates.primitive {R : TypedValue → TypedValue → Prop} (hR : Relates ρ S R) {v : Value}
    (h : v.isPrimitive = true) : R (.ofValue v) (.ofValue v) := by
  have hsame := hR.ofValue (v := v) (Value.within_of_isPrimitive h)
  rwa [Value.rename_eq_self (Value.within_of_isPrimitive h)] at hsame

/-- The type of a result shows in its string form only where a container stands. -/
theorem Corresponds.toText (h : Corresponds ρ S r r') : r'.toText = r.toText := by
  obtain ⟨v, ty⟩ := r
  obtain ⟨v', ty'⟩ := r'
  obtain ⟨hvalue, -, hty⟩ := h
  change v' = v.rename ρ at hvalue
  subst hvalue
  rcases hty with hty | ⟨hunknown, -⟩
  · change ty' = ty at hty
    subst hty
    cases v <;> rfl
  · cases hunknown
    rfl

theorem Corresponds.falsy (h : Corresponds ρ S r r') : r'.falsy = r.falsy := by
  rw [TypedValue.falsy, h.value, Value.falsy_rename, TypedValue.falsy]

theorem Corresponds.toNumber (h : Corresponds ρ S r r') :
    r'.value.toNumber = r.value.toNumber := by
  rw [h.value, Value.toNumber_rename]

theorem Corresponds.equal {l l' : TypedValue} (hinj : Set.InjOn ρ S)
    (hl : Corresponds ρ S l l') (hr : Corresponds ρ S r r') : l'.equal r' = l.equal r := by
  rw [equal_eq_ofValue l', equal_eq_ofValue l, hl.value, hr.value]
  exact equal_rename hinj hl.within hr.within

theorem Corresponds.order? {l l' : TypedValue} (hl : Corresponds ρ S l l')
    (hr : Corresponds ρ S r r') : l'.order? r' = l.order? r := by
  rw [order?_eq_ofValue l', order?_eq_ofValue l, hl.value, hr.value]
  exact order?_rename ρ l.value r.value

end TypedValue

open TypedValue

namespace Evaluation

variable {α β γ δ : Type} {R : α → β → Prop} {T : γ → δ → Prop} {x : Evaluation α}
  {y : Evaluation β} {f : α → Evaluation γ} {g : β → Evaluation δ}

theorem Simulates.pure {a : α} {b : β} (h : R a b) :
    Simulates ρ S R (pure a) (pure b) :=
  fun _ _ hrenaming => .ok hrenaming h

theorem Simulates.throw (error : EvalError) :
    Simulates ρ S R (throw error : Evaluation α) (throw error : Evaluation β) :=
  fun _ _ _ => .error error

/-- Runs that end alike go on alike. -/
theorem bind_outcomes (hx : Outcomes ρ S R (x next) (y next'))
    (hf : ∀ a b, R a b → Simulates ρ S T (f a) (g b)) :
    Outcomes ρ S T ((x >>= f) next) ((y >>= g) next') := by
  generalize hout : x next = out at hx
  generalize hout' : y next' = out' at hx
  cases hx with
  | error error =>
      rw [bind_of_error hout, bind_of_error hout']
      exact .error error
  | ok hrenaming hrelated =>
      rw [bind_of_ok hout, bind_of_ok hout']
      exact hf _ _ hrelated _ _ hrenaming

theorem Simulates.bind (hx : Simulates ρ S R x y)
    (hf : ∀ a b, R a b → Simulates ρ S T (f a) (g b)) :
    Simulates ρ S T (x >>= f) (y >>= g) :=
  fun next next' hrenaming => bind_outcomes (hx next next' hrenaming) hf

end Evaluation

open Evaluation

variable {R : TypedValue → TypedValue → Prop}

/-! The parts of evaluation. -/

namespace Eval

theorem variableValue_simulates (hR : Relates ρ S R) {ctx ctx' : Context} {name : String}
    (h : Context.CorrespondsAt ρ S ctx ctx' name) :
    Simulates ρ S R (variableValue ctx name) (variableValue ctx' name) := by
  obtain ⟨hget, hwithin⟩ := h
  unfold variableValue
  cases hv : ctx.get? name with
  | none =>
      rw [hv, Option.map_none] at hget
      rw [hget]
      exact Simulates.throw _
  | some v =>
      rw [hv, Option.map_some] at hget
      rw [hget]
      exact Simulates.pure (hR.ofValue (hwithin v hv))

theorem propertyValue_simulates (hR : Relates ρ S R) (h : Corresponds ρ S r r')
    (name : String) :
    Simulates ρ S R (propertyValue r.value name) (propertyValue r'.value name) := by
  rw [h.value]
  have hwithin := h.within
  cases hv : r.value with
  | object identity fields =>
      rw [hv] at hwithin
      simp only [Value.rename, propertyValue, Value.get?_renameFields]
      cases hget : Fields.get? fields name with
      | none => exact Simulates.throw _
      | some found =>
          obtain ⟨field, member, rfl⟩ := Fields.exists_mem_of_get? hget
          have hfound := (Value.within_object.mp hwithin).2 field member
          exact Simulates.pure (hR.ofValue hfound)
  | _ => exact Simulates.throw _

theorem indexable_simulates (h : Corresponds ρ S r r') :
    Simulates ρ S
      (fun items items' => items' = items.map (Value.rename ρ) ∧ ∀ item ∈ items, item.Within S)
      (indexable r.value) (indexable r'.value) := by
  rw [h.value]
  have hwithin := h.within
  cases hv : r.value with
  | array identity items =>
      rw [hv] at hwithin
      exact Simulates.pure ⟨Value.renameItems_eq_map ρ items, (Value.within_array.mp hwithin).2⟩
  | _ => exact Simulates.throw _

theorem itemAt_simulates (hR : Relates ρ S R) {items : List Value}
    (h : ∀ item ∈ items, item.Within S) (index : Binary64) :
    Simulates ρ S R (itemAt items index) (itemAt (items.map (Value.rename ρ)) index) := by
  unfold itemAt
  rw [List.length_map]
  split
  · exact Simulates.pure hR.unknown
  · split
    · exact Simulates.throw _
    · cases index.floorAbs? with
      | none => exact Simulates.throw _
      | some i =>
          simp only [Option.bind_some, List.getElem?_map]
          cases hitem : items[i]? with
          | none => exact Simulates.throw _
          | some item =>
              exact Simulates.pure (hR.ofValue (h item (List.mem_of_getElem? hitem)))

theorem compareBy_eq {l l' : TypedValue} (hinj : Set.InjOn ρ S) (op : CompareOp)
    (hl : Corresponds ρ S l l') (hr : Corresponds ρ S r r') :
    compareBy op l' r' = compareBy op l r := by
  have hequal := hl.equal hinj hr
  have horder := hl.order? hr
  cases op <;>
    simp only [compareBy, TypedValue.less, TypedValue.lessEq, TypedValue.greater,
      TypedValue.greaterEq, hequal, horder]

theorem decidedBy?_eq (op : LogicalOp) (h : Corresponds ρ S r r') :
    decidedBy? op r' = decidedBy? op r := by
  cases op with
  | and => rw [decidedBy?, decidedBy?, h.falsy]
  | or => rw [decidedBy?, decidedBy?, truthy, truthy, h.falsy]

end Eval

/-! New containers, and the documents that they are made from. -/

namespace Value

variable {items : List Value} {fields : List (String × Value)}

theorem array_simulates (h : ∀ item ∈ items, item.Within S) :
    Simulates ρ S (fun v v' => v' = v.rename ρ ∧ v.Within S) (ofFresh (Fresh.array items))
      (ofFresh (Fresh.array (items.map (rename ρ)))) := by
  intro next next' hrenaming
  refine .ok (hrenaming.advance 1) ⟨?_, within_array.mpr ⟨?_, h⟩⟩
  · rw [rename, hrenaming.next_eq, renameItems_eq_map]
  · exact hrenaming.covers next (Nat.le_refl next)

theorem object_simulates (h : ∀ field ∈ fields, field.2.Within S) :
    Simulates ρ S (fun v v' => v' = v.rename ρ ∧ v.Within S) (ofFresh (Fresh.object fields))
      (ofFresh (Fresh.object (fields.map fun field => (field.1, field.2.rename ρ)))) := by
  intro next next' hrenaming
  refine .ok (hrenaming.advance 1) ⟨?_, within_object.mpr ⟨?_, ?_⟩⟩
  · rw [rename, hrenaming.next_eq, renameFields_eq_map, Fields.ofList_map]
  · exact hrenaming.covers next (Nat.le_refl next)
  · exact fun field member => h field (Fields.mem_ofList member)

/-- A document becomes the same value wherever the new identities start, up to a renaming. -/
theorem ofJson_simulates (ρ : Identity → Identity) (S : Set Identity) (json : Json) :
    Simulates ρ S (fun v v' => v' = v.rename ρ ∧ v.Within S) (ofFresh (ofJson json))
      (ofFresh (ofJson json)) := by
  induction json with
  | null | bool | int | float | string =>
      exact Simulates.pure ⟨rfl, within_of_isPrimitive rfl⟩
  | array items ih =>
      have hitems : Simulates ρ S
          (fun vs vs' => vs' = vs.map (rename ρ) ∧ ∀ v ∈ vs, v.Within S)
          (ofFresh (ofItems items)) (ofFresh (ofItems items)) := by
        induction items with
        | nil => exact Simulates.pure ⟨rfl, fun _ hv => absurd hv List.not_mem_nil⟩
        | cons item items ihitems =>
            simp only [ofItems, ofFresh_bind]
            refine (ih item List.mem_cons_self).bind ?_
            rintro v _ ⟨rfl, hv⟩
            refine (ihitems fun other member => ih other (List.mem_cons_of_mem _ member)).bind ?_
            rintro vs _ ⟨rfl, hvs⟩
            exact Simulates.pure ⟨rfl, List.forall_mem_cons.mpr ⟨hv, hvs⟩⟩
      simp only [ofJson, ofFresh_bind]
      refine hitems.bind ?_
      rintro vs _ ⟨rfl, hvs⟩
      exact array_simulates hvs
  | object members ih =>
      have hmembers : Simulates ρ S
          (fun fs fs' => fs' = fs.map (fun field => (field.1, field.2.rename ρ)) ∧
            ∀ field ∈ fs, field.2.Within S)
          (ofFresh (ofMembers members)) (ofFresh (ofMembers members)) := by
        induction members with
        | nil => exact Simulates.pure ⟨rfl, fun _ hv => absurd hv List.not_mem_nil⟩
        | cons member members ihmembers =>
            obtain ⟨name, value⟩ := member
            simp only [ofMembers, ofFresh_bind]
            refine (ih (name, value) List.mem_cons_self).bind ?_
            rintro v _ ⟨rfl, hv⟩
            refine (ihmembers fun other member => ih other (List.mem_cons_of_mem _ member)).bind ?_
            rintro fs _ ⟨rfl, hfs⟩
            exact Simulates.pure ⟨rfl, List.forall_mem_cons.mpr ⟨hv, hfs⟩⟩
      simp only [ofJson, ofFresh_bind]
      refine hmembers.bind ?_
      rintro fs _ ⟨rfl, hfs⟩
      exact object_simulates hfs

end Value

/-! Calls. -/

namespace Builtin

variable {whole whole' part part' first first' : TypedValue} {rest rest' : List TypedValue}

theorem map_toText_eq (h : List.Forall₂ (Corresponds ρ S) rest rest') :
    rest'.map TypedValue.toText = rest.map TypedValue.toText := by
  induction h with
  | nil => rfl
  | cons hfirst _ ih => rw [List.map_cons, List.map_cons, hfirst.toText, ih]

theorem lowerText_eq (h : Corresponds ρ S r r') : lowerText r' = lowerText r := by
  rw [lowerText, h.toText, lowerText]

theorem isContained_eq (hinj : Set.InjOn ρ S) (hwhole : Corresponds ρ S whole whole')
    (hpart : Corresponds ρ S part part') :
    isContained whole' part' = isContained whole part := by
  unfold isContained
  rw [lowerText_eq hwhole, lowerText_eq hpart, hwhole.value]
  have hwithin := hwhole.within
  cases hv : whole.value with
  | array identity items =>
      rw [hv] at hwithin
      have hitem : ∀ item ∈ items,
          (ofValue (item.rename ρ)).equal part' = (ofValue item).equal part := by
        intro item member
        have hitem := (Value.within_array.mp hwithin).2 item member
        exact (corresponds_ofValue hitem).equal hinj hpart
      simp only [Value.rename, Value.renameItems_eq_map, List.any_map]
      rw [Bool.eq_iff_iff, List.any_eq_true, List.any_eq_true]
      refine exists_congr fun item => and_congr_right fun member => ?_
      rw [Function.comp_apply, hitem item member]
  | _ => rfl

theorem joined_relates (hR : Relates ρ S R) (hfirst : R first first')
    (hrest : List.Forall₂ R rest rest') : R (joined first rest) (joined first' rest') := by
  have hseparator : separator rest' = separator rest := by
    cases hrest with
    | nil => rfl
    | cons hsep _ => exact (hR.corresponds hsep).toText
  unfold joined
  rw [hseparator, (hR.corresponds hfirst).value]
  cases hv : first.value with
  | array identity items =>
      simp only [Value.rename, Value.renameItems_eq_map, List.map_map, Function.comp_def,
        Value.toText_ofValue_rename]
      exact hR.primitive rfl
  | object => exact hR.primitive rfl
  | _ => exact hfirst

theorem body_simulates (hR : Relates ρ S R) {callable : Callable} {args args' : List TypedValue}
    (member : callable ∈ callables) (haccepts : callable.arity.accepts args.length = true)
    (h : List.Forall₂ R args args') :
    Simulates ρ S R (callable.body args) (callable.body args') := by
  revert args' h
  refine accepted_cases
    (motive := fun _ body args => ∀ {args' : List TypedValue},
      List.Forall₂ R args args' → Simulates ρ S R (body args) (body args'))
    ?startsWith ?endsWith ?contains ?join ?format ?toJson ?fromJson member haccepts
  case startsWith =>
    rintro whole part _ (_ | ⟨hwhole, _ | ⟨hpart, _ | _⟩⟩)
    rw [startsWith_pair, startsWith_pair, lowerText_eq (hR.corresponds hwhole),
      lowerText_eq (hR.corresponds hpart)]
    exact Simulates.pure (hR.primitive rfl)
  case endsWith =>
    rintro whole part _ (_ | ⟨hwhole, _ | ⟨hpart, _ | _⟩⟩)
    rw [endsWith_pair, endsWith_pair, lowerText_eq (hR.corresponds hwhole),
      lowerText_eq (hR.corresponds hpart)]
    exact Simulates.pure (hR.primitive rfl)
  case contains =>
    rintro whole part _ (_ | ⟨hwhole, _ | ⟨hpart, _ | _⟩⟩) next next' hrenaming
    rw [contains_pair, contains_pair,
      isContained_eq hrenaming.injOn (hR.corresponds hwhole) (hR.corresponds hpart)]
    exact Simulates.pure (hR.primitive rfl) next next' hrenaming
  case join =>
    rintro first rest _ (_ | ⟨hfirst, hrest⟩)
    rw [join_cons, join_cons]
    exact Simulates.pure (joined_relates hR hfirst hrest)
  case format =>
    rintro first rest _ (_ | ⟨hfirst, hrest⟩)
    rw [format_cons, format_cons, (hR.corresponds hfirst).toText,
      map_toText_eq (hrest.imp fun _ _ => hR.corresponds)]
    cases Template.expand (rest.map TypedValue.toText) first.toText.toList with
    | ok text => exact Simulates.pure (hR.primitive rfl)
    | error fault => exact Simulates.throw _
  case toJson =>
    rintro first _ (_ | ⟨hfirst, _ | _⟩)
    rw [toJson_one, toJson_one, (hR.corresponds hfirst).value, Value.toJsonText,
      Value.toJsonText, Value.write_rename]
    exact Simulates.pure (hR.primitive rfl)
  case fromJson =>
    rintro first _ (_ | ⟨hfirst, _ | _⟩)
    rw [fromJson_one, fromJson_one, (hR.corresponds hfirst).toText]
    cases Json.parse first.toText with
    | ok json =>
        refine (Value.ofJson_simulates ρ S json).bind ?_
        rintro v _ ⟨rfl, hv⟩
        exact Simulates.pure (hR.ofValue hv)
    | error error => exact Simulates.throw _

end Builtin

/-- A call does the same in two runs when the function called does. -/
theorem Registry.call_simulates {registry : Registry} {name : String}
    {args args' : List TypedValue} (h : List.Forall₂ R args args')
    (hbody : ∀ callable, registry.get? name = some callable →
      callable.arity.accepts args.length = true →
        Simulates ρ S R (callable.body args) (callable.body args')) :
    Simulates ρ S R (registry.call name args) (registry.call name args') := by
  cases hget : registry.get? name with
  | none =>
      rw [call_of_none hget, call_of_none hget]
      exact Simulates.throw _
  | some callable =>
      have hsame : callable.arity.accepts args'.length = callable.arity.accepts args.length := by
        rw [h.length_eq]
      cases haccepts : callable.arity.accepts args.length with
      | false =>
          rw [call_of_refused hget haccepts, call_of_refused hget (hsame.trans haccepts),
            h.length_eq]
          exact Simulates.throw _
      | true =>
          rw [call_of_accepted hget haccepts, call_of_accepted hget (hsame.trans haccepts)]
          exact hbody callable hget haccepts

theorem Builtin.call_simulates (hR : Relates ρ S R) {args args' : List TypedValue}
    (name : String) (h : List.Forall₂ R args args') :
    Simulates ρ S R (registry.call name args) (registry.call name args') :=
  Registry.call_simulates h fun _ hget haccepts =>
    body_simulates hR (get?_eq_some hget).1 haccepts h

namespace Expr

variable {registry : Registry} {ctx ctx' : Context}

theorem evalArgs_simulates_of_forall {args : List Expr}
    (hargs : ∀ arg ∈ args, Simulates ρ S R (arg.eval registry ctx) (arg.eval registry ctx')) :
    Simulates ρ S (List.Forall₂ R) (evalArgs registry ctx args) (evalArgs registry ctx' args) := by
  induction args with
  | nil => exact Simulates.pure .nil
  | cons arg args ih =>
      rw [evalArgs, evalArgs]
      refine (hargs arg List.mem_cons_self).bind fun r r' hr => ?_
      have hlater := ih fun other member => hargs other (List.mem_cons_of_mem arg member)
      exact hlater.bind fun rs rs' hrs => Simulates.pure (.cons hr hrs)

/-- An expression does the same in two contexts that differ, in the names it uses, by a
renaming only, if so do the functions it calls. -/
theorem eval_simulates_of_calls (hR : Relates ρ S R) {e : Expr}
    (hcalls : ∀ name ∈ e.calledNames, ∀ args args', List.Forall₂ R args args' →
      Simulates ρ S R (registry.call name args) (registry.call name args'))
    (h : ∀ name ∈ e.variableNames, Context.CorrespondsAt ρ S ctx ctx' name) :
    Simulates ρ S R (e.eval registry ctx) (e.eval registry ctx') := by
  induction e with
  | null | bool | int | float | string => exact Simulates.pure (hR.primitive rfl)
  | var span name => exact Eval.variableValue_simulates hR (h name List.mem_cons_self)
  | property span receiver name ih =>
      rw [eval, eval]
      refine (ih hcalls h).bind fun r r' hr => ?_
      exact Eval.propertyValue_simulates hR (hR.corresponds hr) name.name
  | index span operand position ihoperand ihposition =>
      rw [calledNames, List.forall_mem_append] at hcalls
      rw [variableNames, List.forall_mem_append] at h
      rw [eval, eval]
      refine (ihoperand hcalls.1 h.1).bind fun r r' hr => ?_
      refine (Eval.indexable_simulates (hR.corresponds hr)).bind ?_
      rintro items _ ⟨rfl, hitems⟩
      refine (ihposition hcalls.2 h.2).bind fun i i' hi => ?_
      rw [(hR.corresponds hi).toNumber]
      exact Eval.itemAt_simulates hR hitems _
  | not span operand ih =>
      rw [eval, eval]
      refine (ih hcalls h).bind fun r r' hr => ?_
      rw [(hR.corresponds hr).falsy]
      exact Simulates.pure (hR.primitive rfl)
  | compare span op left right ihleft ihright =>
      rw [calledNames, List.forall_mem_append] at hcalls
      rw [variableNames, List.forall_mem_append] at h
      rw [eval, eval]
      refine (ihleft hcalls.1 h.1).bind fun l l' hl => ?_
      refine (ihright hcalls.2 h.2).bind fun r r' hr next next' hrenaming => ?_
      rw [Eval.compareBy_eq hrenaming.injOn op (hR.corresponds hl) (hR.corresponds hr)]
      exact Simulates.pure (hR.primitive rfl) next next' hrenaming
  | logical span op left right ihleft ihright =>
      rw [calledNames, List.forall_mem_append] at hcalls
      rw [variableNames, List.forall_mem_append] at h
      rw [eval, eval]
      refine (ihleft hcalls.1 h.1).bind fun l l' hl => ?_
      rw [Eval.decidedBy?_eq op (hR.corresponds hl)]
      cases Eval.decidedBy? op l with
      | some b => exact Simulates.pure (hR.primitive rfl)
      | none =>
          refine (ihright hcalls.2 h.2).bind fun r r' hr => ?_
          rw [truthy, truthy, (hR.corresponds hr).falsy]
          exact Simulates.pure (hR.primitive rfl)
  | call span callee args ih =>
      rw [calledNames, List.forall_mem_cons] at hcalls
      rw [eval, eval]
      have hargs : Simulates ρ S (List.Forall₂ R) (evalArgs registry ctx args)
          (evalArgs registry ctx' args) := by
        refine evalArgs_simulates_of_forall fun arg member => ih arg member ?_ ?_
        · intro name hname
          exact hcalls.2 name (mem_calledNamesOfArgs.mpr ⟨arg, member, hname⟩)
        · intro name hname
          exact h name (mem_variableNamesOfArgs.mpr ⟨arg, member, hname⟩)
      exact hargs.bind fun rs rs' hrs => hcalls.1 rs rs' hrs

/-- With the built-in functions, the two runs give results that correspond. -/
theorem eval_simulates {e : Expr}
    (h : ∀ name ∈ e.variableNames, Context.CorrespondsAt ρ S ctx ctx' name) :
    Simulates ρ S (Corresponds ρ S) (e.eval Builtin.registry ctx)
      (e.eval Builtin.registry ctx') :=
  eval_simulates_of_calls (corresponds_relates ρ S)
    (fun name _ _ _ hargs => Builtin.call_simulates (corresponds_relates ρ S) name hargs) h

theorem evalArgs_simulates {args : List Expr}
    (h : ∀ name ∈ variableNamesOfArgs args, Context.CorrespondsAt ρ S ctx ctx' name) :
    Simulates ρ S (List.Forall₂ (Corresponds ρ S)) (evalArgs Builtin.registry ctx args)
      (evalArgs Builtin.registry ctx' args) :=
  evalArgs_simulates_of_forall fun arg member => eval_simulates fun name hname =>
    h name (mem_variableNamesOfArgs.mpr ⟨arg, member, hname⟩)

end Expr

end WorkflowExpr
