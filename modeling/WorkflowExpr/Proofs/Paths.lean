import WorkflowExpr.Proofs.Fields
import WorkflowExpr.Proofs.Induction
import WorkflowExpr.Proofs.Json.StandsFor
import WorkflowExpr.Proofs.Steps
import WorkflowExpr.Proofs.WholeNumbers

/-!
Paths into a document. An expression that starts from a name and takes properties and
positions, evaluated in the context that a document makes, finds what the same steps lead to in
the document itself. Where the steps lead nowhere, it fails for the reason of the first step
that cannot be taken.
-/

namespace WorkflowExpr

open Eval Evaluation

inductive PathStep where
  | property (span : Span) (name : Ident)
  | index (span inner : Span) (position : Int64)

def PathStep.apply (e : Expr) : PathStep → Expr
  | .property span name => .property span e name
  | .index span inner position => .index span e (.int inner position)

/-- The expression that takes steps from what a name stands for. -/
def Expr.path (span : Span) (name : String) (steps : List PathStep) : Expr :=
  steps.foldl PathStep.apply (.var span name)

/-- The item with a number, counted from zero. -/
def numbered? {α : Type} (items : List α) (number : Int) : Option α :=
  if number < 0 then none else items[number.toNat]?

namespace Json

def tag : Json → Tag
  | .null => .null
  | .bool _ => .bool
  | .int _ | .float _ => .number
  | .string _ => .string
  | .array _ => .array
  | .object _ => .object

/-- The member of a name. Of several members the last one counts. -/
def member? (members : List (String × Json)) (name : String) : Option Json :=
  Fields.get? members.reverse name

/-- What a step leads to in a document, or why it cannot be taken. -/
def step (json : Json) : PathStep → Except EvalError Json
  | .property _ name =>
      match json with
      | .object members =>
          match member? members name.name with
          | some value => .ok value
          | none => .error (.unknownProperty name.name)
      | other => .error (.typeMismatch (.property name.name other.tag))
  | .index _ _ position =>
      match json with
      | .array items =>
          match numbered? items position.toInt with
          | some item => .ok item
          | none => .error (.indexOutOfRange (.ofInt position.toInt) items.length)
      | other => .error (.typeMismatch (.index other.tag))

/-- What a name and the steps after it lead to in an object, or why the first step that cannot
be taken cannot be taken. -/
def locate (members : List (String × Json)) (name : String) (steps : List PathStep) :
    Except EvalError Json :=
  match member? members name with
  | some json => steps.foldlM step json
  | none => .error (.unknownVariable name)

/-- Documents in which every number is one, as in all that have a text, and in which positions
are whole numbers that exist. -/
inductive Regular : Json → Prop where
  | null : Regular .null
  | bool (b : Bool) : Regular (.bool b)
  | int (i : Int) : Regular (.int i)
  | float {x : Binary64} (hnumber : x.isNaN = false) : Regular (.float x)
  | string (s : String) : Regular (.string s)
  | array {items : List Json} (hlength : items.length ≤ Binary64.maxWhole)
      (hitems : ∀ item ∈ items, Regular item) : Regular (.array items)
  | object {members : List (String × Json)} (hmembers : ∀ member ∈ members, Regular member.2) :
      Regular (.object members)

theorem Regular.member {members : List (String × Json)} (h : (Json.object members).Regular)
    {name : String} {json : Json} (hmember : member? members name = some json) :
    json.Regular := by
  obtain ⟨member, hin, rfl⟩ := Fields.exists_mem_of_get? hmember
  cases h with
  | object hmembers => exact hmembers member (List.mem_reverse.mp hin)

theorem Regular.item {items : List Json} (h : (Json.array items).Regular) {number : Int}
    {json : Json} (hitem : numbered? items number = some json) : json.Regular := by
  rw [numbered?] at hitem
  split at hitem
  · cases hitem
  · cases h with
    | array _ hitems => exact hitems json (List.mem_of_getElem? hitem)

end Json

namespace Value

theorem numbered?_of_forall₂ {vs : List Value} {items : List Json}
    (h : List.Forall₂ StandsFor vs items) (number : Int) :
    Option.Rel StandsFor (numbered? vs number) (numbered? items number) := by
  rw [numbered?, numbered?]
  split
  · exact .none
  · generalize number.toNat = i
    induction h generalizing i with
    | nil => exact .none
    | cons hfirst _ ih =>
        cases i with
        | zero => exact .some hfirst
        | succ i => exact ih i

/-- A name stands for the same in the fields of a value as in the members of its document. -/
theorem get?_of_pointwise {fields : List (String × Value)} {members : List (String × Json)}
    (h : Fields.Pointwise StandsFor fields members) (name : String) :
    Option.Rel StandsFor (Fields.get? (Fields.ofList fields) name)
      (Json.member? members name) := by
  rw [Json.member?, ← Fields.get?_ofList]
  exact h.ofList.get? name

/-- Two lists that are related to one third are related to each other. -/
theorem forall₂_of_common {α γ : Type} {R : α → γ → Prop} {T : α → α → Prop} {as bs : List α}
    {cs : List γ} (hcommon : ∀ c ∈ cs, ∀ a b, R a c → R b c → T a b)
    (has : List.Forall₂ R as cs) (hbs : List.Forall₂ R bs cs) : List.Forall₂ T as bs := by
  induction has generalizing bs with
  | nil =>
      cases hbs
      exact .nil
  | cons hfirst _ ih =>
      rw [List.forall_mem_cons] at hcommon
      cases hbs with
      | cons hother hothers => exact .cons (hcommon.1 _ _ hfirst hother) (ih hcommon.2 hothers)

/-- Two values of one document have the same contents. -/
theorem StandsFor.sameContents {json : Json} (hregular : json.Regular) {v w : Value}
    (hv : v.StandsFor json) (hw : w.StandsFor json) : v.sameContents w = true := by
  induction json generalizing v w with
  | null =>
      obtain ⟨start, rfl⟩ := hv
      obtain ⟨other, rfl⟩ := hw
      rfl
  | bool b =>
      obtain ⟨start, rfl⟩ := hv
      obtain ⟨other, rfl⟩ := hw
      exact beq_self_eq_true b
  | int i =>
      obtain ⟨start, rfl⟩ := hv
      obtain ⟨other, rfl⟩ := hw
      exact Binary64.numericEq_self (Binary64.isNaN_ofInt i)
  | float x =>
      obtain ⟨start, rfl⟩ := hv
      obtain ⟨other, rfl⟩ := hw
      cases hregular with
      | float hnumber => exact Binary64.numericEq_self hnumber
  | string s =>
      obtain ⟨start, rfl⟩ := hv
      obtain ⟨other, rfl⟩ := hw
      exact beq_self_eq_true s
  | array items ih =>
      obtain ⟨i, vs, rfl, hvs⟩ := hv.array
      obtain ⟨j, ws, rfl, hws⟩ := hw.array
      cases hregular with
      | array _ hitems =>
          apply sameItems_of_forall₂
          apply forall₂_of_common _ hvs hws
          intro item member v w hv hw
          exact ih item member (hitems item member) hv hw
  | object members ih =>
      obtain ⟨i, fs, rfl, hfs⟩ := hv.object
      obtain ⟨j, gs, rfl, hgs⟩ := hw.object
      cases hregular with
      | object hmembers =>
          have hsame : Fields.Pointwise (fun v w => v.sameContents w = true) fs gs := by
            apply forall₂_of_common _ hfs hgs
            rintro member hin f g ⟨hf, hvf⟩ ⟨hg, hvg⟩
            exact ⟨hf.trans hg.symm, ih member hin (hmembers member hin) hvf hvg⟩
          exact sameFields_of_pointwise hsame.ofList

end Value

open Value

/-- A computation found what a document says: the value of a part of it, or an error. -/
inductive Finds (next : Identity) :
    Except EvalError (TypedValue × Identity) → Except EvalError Json → Prop where
  | ok {v : Value} {json : Json} (hvalue : v.StandsFor json) (hregular : json.Regular) :
      Finds next (.ok (.ofValue v, next)) (.ok json)
  | error (error : EvalError) : Finds next (.error error) (.error error)

variable {registry : Registry} {ctx : Context} {next : Identity} {v : Value} {json : Json}

namespace Eval

theorem propertyValue_finds (hvalue : v.StandsFor json) (hregular : json.Regular)
    (span : Span) (name : Ident) :
    Finds next (propertyValue v name.name next) (json.step (.property span name)) := by
  cases json with
  | object members =>
      obtain ⟨identity, fields, rfl, hfields⟩ := hvalue.object
      have hget := get?_of_pointwise hfields name.name
      simp only [propertyValue, Json.step]
      generalize hmember : Json.member? members name.name = member at hget ⊢
      generalize Fields.get? (Fields.ofList fields) name.name = found at hget ⊢
      cases hget with
      | none => exact .error _
      | some hfound => exact .ok hfound (hregular.member hmember)
  | _ =>
      obtain ⟨start, rfl⟩ := hvalue
      exact .error _

/-- A whole number finds the item that it counts, or nothing if it does not count any. -/
theorem itemAt_ofInt {items : List Value} (hlength : items.length ≤ Binary64.maxWhole) (i : Int)
    (next : Identity) :
    itemAt items (.ofInt i) next =
      match numbered? items i with
      | some item => .ok (.ofValue item, next)
      | none => .error (.indexOutOfRange (.ofInt i) items.length) := by
  rw [itemAt, numbered?, Binary64.isNaN_ofInt, Binary64.isNegative_ofInt]
  by_cases hneg : i < 0
  · simp only [hneg, decide_true, if_true, Bool.false_eq_true, if_false, throw_run]
  · have hitem : (Binary64.ofInt i).floorAbs?.bind (items[·]?) = items[i.toNat]? := by
      have habs : i.toNat = i.natAbs := by omega
      rcases Nat.le_total i.natAbs Binary64.maxWhole with hsmall | hlarge
      · rw [Binary64.floorAbs?_ofInt_of_le hsmall, Option.bind_some, habs]
      · -- So far from the first item there is none, neither before nor after rounding.
        have hbeyond : items[i.toNat]? = none := by
          rw [List.getElem?_eq_none_iff, habs]
          exact Nat.le_trans hlength hlarge
        rw [hbeyond]
        cases hfloor : (Binary64.ofInt i).floorAbs? with
        | none => rfl
        | some n =>
            rw [Option.bind_some, List.getElem?_eq_none_iff]
            exact Nat.le_trans hlength (Binary64.le_of_floorAbs?_ofInt hlarge hfloor)
    simp only [hneg, decide_false, Bool.false_eq_true, if_false, hitem]
    cases items[i.toNat]? <;> rfl

theorem index_finds (hvalue : v.StandsFor json) (hregular : json.Regular) (span inner : Span)
    (position : Int64) :
    Finds next ((indexable v >>= fun items => itemAt items (.ofInt position.toInt)) next)
      (json.step (.index span inner position)) := by
  cases json with
  | array items =>
      obtain ⟨identity, vs, rfl, hvs⟩ := hvalue.array
      have hlength : vs.length ≤ Binary64.maxWhole := by
        rw [hvs.length_eq]
        cases hregular with
        | array hlength _ => exact hlength
      have hitems : indexable (.array identity vs) next = .ok (vs, next) := rfl
      have hget := numbered?_of_forall₂ hvs position.toInt
      rw [bind_of_ok hitems, itemAt_ofInt hlength, Json.step, hvs.length_eq]
      generalize hitem : numbered? items position.toInt = item at hget ⊢
      generalize numbered? vs position.toInt = found at hget ⊢
      cases hget with
      | none => exact .error _
      | some hfound => exact .ok hfound (hregular.item hitem)
  | _ =>
      obtain ⟨start, rfl⟩ := hvalue
      exact .error _

end Eval

theorem TypedValue.toNumber_ofNumber (x : Binary64) : (ofNumber x).value.toNumber = x := rfl

variable {e : Expr} {out : Except EvalError Json}

/-- One more step finds what it leads to from what was found. -/
theorem Finds.apply (h : Finds next (e.eval registry ctx next) out) (step : PathStep) :
    Finds next ((step.apply e).eval registry ctx next) (out >>= fun json => json.step step) := by
  generalize hrun : e.eval registry ctx next = run at h
  cases h with
  | error error =>
      have hfails : (step.apply e).eval registry ctx next = .error error := by
        cases step with
        | property span name =>
            rw [PathStep.apply, Expr.eval]
            exact bind_of_error hrun
        | index span inner position =>
            rw [PathStep.apply, Expr.eval]
            exact bind_of_error hrun
      rw [hfails]
      exact .error error
  | ok hvalue hregular =>
      cases step with
      | property span name =>
          rw [PathStep.apply, Expr.eval, bind_of_ok hrun]
          exact propertyValue_finds hvalue hregular span name
      | index span inner position =>
          rw [PathStep.apply, Expr.eval, bind_of_ok hrun]
          simp only [Expr.eval, pure_bind, TypedValue.toNumber_ofNumber]
          exact index_finds hvalue hregular span inner position

theorem Finds.foldl (h : Finds next (e.eval registry ctx next) out) (steps : List PathStep) :
    Finds next ((steps.foldl PathStep.apply e).eval registry ctx next)
      (out >>= fun json => steps.foldlM Json.step json) := by
  induction steps generalizing e out with
  | nil =>
      simp only [List.foldl_nil, List.foldlM_nil, bind_pure]
      exact h
  | cons step steps ih =>
      have hlater := ih (h.apply step)
      simp only [List.foldl_cons, List.foldlM_cons]
      rw [bind_assoc] at hlater
      exact hlater

/-- An object makes a context. A path evaluated in it yields a value with the contents of the
node that the path leads to in the object, with the type of its kind, or it fails for the reason
of the first step that cannot be taken. -/
theorem Expr.eval_path {members : List (String × Json)} (hregular : (Json.object members).Regular)
    (registry : Registry) (start : Identity) :
    ∃ ctx made, (Context.ofJson? (.object members)).run start = (some ctx, made) ∧
      ∀ (span : Span) (name : String) (steps : List PathStep) (next : Identity),
        match Json.locate members name steps with
        | .ok node => ∃ v, (Expr.path span name steps).eval registry ctx next =
            .ok (.ofValue v, next) ∧
              ∀ other, v.sameContents ((Value.ofJson node).run other).1 = true
        | .error error => (Expr.path span name steps).eval registry ctx next = .error error := by
  have hfields := standsFor_ofMembers members start
  refine ⟨⟨Fields.ofList ((ofMembers members).run start).1⟩, _, rfl, ?_⟩
  intro span name steps next
  have hget := get?_of_pointwise hfields name
  have hname : Finds next ((Expr.var span name).eval registry
      ⟨Fields.ofList ((ofMembers members).run start).1⟩ next)
      (match Json.member? members name with
        | some json => .ok json
        | none => .error (.unknownVariable name)) := by
    simp only [Expr.eval, variableValue, Context.get?]
    generalize hmember : Json.member? members name = member at hget ⊢
    generalize Fields.get? (Fields.ofList ((ofMembers members).run start).1) name = found
      at hget ⊢
    cases hget with
    | none => exact .error _
    | some hfound => exact .ok hfound (hregular.member hmember)
  have hpath := hname.foldl steps
  have hlocate : Json.locate members name steps =
      (match Json.member? members name with
        | some json => Except.ok json
        | none => .error (.unknownVariable name)) >>= fun json => steps.foldlM Json.step json := by
    rw [Json.locate]
    cases Json.member? members name <;> rfl
  rw [← hlocate] at hpath
  change Finds next ((Expr.path span name steps).eval registry _ next) _ at hpath
  generalize (Expr.path span name steps).eval registry _ next = run at hpath ⊢
  generalize Json.locate members name steps = located at hpath ⊢
  cases hpath with
  | error error => rfl
  | @ok v node hvalue hnode =>
      exact ⟨v, rfl, fun other => hvalue.sameContents hnode ⟨other, rfl⟩⟩

/-- The members of `{"a": [true, {"b": "x"}]}`. -/
def nestedMembers : List (String × Json) :=
  [("a", .array [.bool true, .object [("b", .string "x")]])]

theorem nestedMembers_regular : (Json.object nestedMembers).Regular := by
  have hinner : (Json.object [("b", .string "x")]).Regular := by
    apply Json.Regular.object
    intro member hmember
    cases List.mem_singleton.mp hmember
    exact .string "x"
  apply Json.Regular.object
  intro member hmember
  cases List.mem_singleton.mp hmember
  apply Json.Regular.array (by decide)
  intro item hitem
  rcases List.mem_cons.mp hitem with rfl | hitem
  · exact .bool true
  · cases List.mem_singleton.mp hitem
    exact hinner

/-- In the context of that document `a[1].b` is found, and `a[2]` and `a[1].b[0]` are not. -/
theorem Expr.eval_path_nested :
    (Json.object nestedMembers).Regular ∧
    ∃ ctx made, (Context.ofJson? (.object nestedMembers)).run 0 = (some ctx, made) ∧
      (∃ v, (Expr.path .nowhere "a" [.index .nowhere .nowhere 1,
          .property .nowhere ⟨"b", .nowhere⟩]).eval Builtin.registry ctx 7 =
            .ok (.ofValue v, 7) ∧ v.sameContents (.string "x") = true) ∧
      (Expr.path .nowhere "a" [.index .nowhere .nowhere 2]).eval Builtin.registry ctx 7 =
        .error (.indexOutOfRange (.ofInt 2) 2) ∧
      (Expr.path .nowhere "a" [.index .nowhere .nowhere 1, .property .nowhere ⟨"b", .nowhere⟩,
        .index .nowhere .nowhere 0]).eval Builtin.registry ctx 7 =
          .error (.typeMismatch (.index .string)) := by
  obtain ⟨ctx, made, hctx, hpath⟩ := eval_path nestedMembers_regular Builtin.registry 0
  obtain ⟨v, heval, hsame⟩ := hpath .nowhere "a" [.index .nowhere .nowhere 1,
    .property .nowhere ⟨"b", .nowhere⟩] 7
  have hbeyond := hpath .nowhere "a" [.index .nowhere .nowhere 2] 7
  have hkind := hpath .nowhere "a" [.index .nowhere .nowhere 1,
    .property .nowhere ⟨"b", .nowhere⟩, .index .nowhere .nowhere 0] 7
  exact ⟨nestedMembers_regular, ctx, made, hctx, ⟨v, heval, hsame 0⟩, hbeyond, hkind⟩

end WorkflowExpr
