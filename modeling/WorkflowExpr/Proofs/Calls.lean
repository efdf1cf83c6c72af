import Mathlib.Data.List.Nodup
import WorkflowExpr.Builtin
import WorkflowExpr.Proofs.Evaluation

/-!
What a call can do. A registry finds the last function of a name, and a call of a built-in
function ends in one of three ways: no function of the name, a wrong number of arguments, or
the function's own answer. The answers are stated for arguments that the arity check lets
through, where no argument is ever missing.
-/

namespace WorkflowExpr

namespace Registry

theorem get?_foldl_register (registry : Registry) (callables : List Callable) (name : String) :
    (callables.foldl register registry).get? name =
      (callables.reverse.find? fun callable =>
        Text.lowercase name == Text.lowercase callable.name).or (registry.get? name) := by
  induction callables generalizing registry with
  | nil => rfl
  | cons callable rest ih =>
      rw [List.foldl_cons, ih, get?_register, List.reverse_cons, List.find?_append,
        Option.or_assoc, List.find?_singleton]
      by_cases h : Text.lowercase name = Text.lowercase callable.name <;> simp [h]

/-- Of the functions of a list the last one of a name is found, in whatever case the name is
written. -/
theorem get?_ofList (callables : List Callable) (name : String) :
    (ofList callables).get? name =
      callables.reverse.find? fun callable =>
        Text.lowercase name == Text.lowercase callable.name := by
  rw [ofList, get?_foldl_register]
  exact Option.or_none

variable {registry : Registry} {callable : Callable} {name : String} {args : List TypedValue}

theorem call_of_none (h : registry.get? name = none) :
    registry.call name args = throw (.unknownFunction name) := by
  simp only [call, h]

theorem call_of_refused (h : registry.get? name = some callable)
    (hrefused : callable.arity.accepts args.length = false) :
    registry.call name args = throw (.arityMismatch name callable.arity args.length) := by
  simp [call, h, hrefused]

theorem call_of_accepted (h : registry.get? name = some callable)
    (haccepts : callable.arity.accepts args.length = true) :
    registry.call name args = callable.body args := by
  simp [call, h, haccepts]

end Registry

namespace Builtin

open Evaluation

theorem get?_eq_some {name : String} {callable : Callable}
    (h : registry.get? name = some callable) :
    callable ∈ callables ∧ Text.lowercase callable.name = Text.lowercase name := by
  rw [registry, Registry.get?_ofList] at h
  have hname := List.find?_some h
  have member := List.mem_of_find?_eq_some h
  exact ⟨List.mem_reverse.mp member, (beq_iff_eq.mp hname).symm⟩

theorem get?_eq_none {name : String} (h : registry.get? name = none) :
    ∀ callable ∈ callables, Text.lowercase callable.name ≠ Text.lowercase name := by
  rw [registry, Registry.get?_ofList] at h
  intro callable member heq
  have hno := List.find?_eq_none.mp h callable (List.mem_reverse.mpr member)
  exact hno (beq_iff_eq.mpr heq.symm)

def lowerNames : List String :=
  ["startswith", "endswith", "contains", "join", "format", "tojson", "fromjson"]

theorem map_lowercase_callables :
    (callables.map fun callable => Text.lowercase callable.name) = lowerNames := by
  decide +kernel

theorem nodup_lowercase_callables :
    (callables.map fun callable => Text.lowercase callable.name).Nodup := by
  rw [map_lowercase_callables]
  decide

/-- A call finds no function, or finds one that does not take so many arguments, or does what
the function found does. -/
theorem call_cases (name : String) (args : List TypedValue) :
    (Text.lowercase name ∉ lowerNames ∧
      registry.call name args = throw (.unknownFunction name)) ∨
    ∃ callable ∈ callables, Text.lowercase callable.name = Text.lowercase name ∧
      (callable.arity.accepts args.length = false ∧
          registry.call name args = throw (.arityMismatch name callable.arity args.length) ∨
        callable.arity.accepts args.length = true ∧
          registry.call name args = callable.body args) := by
  cases hget : registry.get? name with
  | none =>
      refine .inl ⟨?_, Registry.call_of_none hget⟩
      rw [← map_lowercase_callables, List.mem_map]
      rintro ⟨callable, member, heq⟩
      exact get?_eq_none hget callable member heq
  | some callable =>
      obtain ⟨member, hname⟩ := get?_eq_some hget
      refine .inr ⟨callable, member, hname, ?_⟩
      cases haccepts : callable.arity.accepts args.length with
      | false => exact .inl ⟨rfl, Registry.call_of_refused hget haccepts⟩
      | true => exact .inr ⟨rfl, Registry.call_of_accepted hget haccepts⟩

/-- A call that succeeds is one of a function that takes so many arguments. -/
theorem exists_body_of_call {name : String} {args : List TypedValue} {r : TypedValue}
    {next last : Identity} (h : registry.call name args next = .ok (r, last)) :
    ∃ callable ∈ callables, Text.lowercase callable.name = Text.lowercase name ∧
      callable.arity.accepts args.length = true ∧ callable.body args next = .ok (r, last) := by
  rcases call_cases name args with
    ⟨-, hcall⟩ | ⟨callable, member, hname, ⟨-, hcall⟩ | ⟨haccepts, hcall⟩⟩
  · rw [hcall] at h
    cases h
  · rw [hcall] at h
    cases h
  · rw [hcall] at h
    exact ⟨callable, member, hname, haccepts, h⟩

/-- No two built-in functions share a name, so the one that a name stands for is the one
called. -/
theorem call_of_mem {callable : Callable} {name : String} {args : List TypedValue}
    (member : callable ∈ callables)
    (hname : Text.lowercase callable.name = Text.lowercase name)
    (haccepts : callable.arity.accepts args.length = true) :
    registry.call name args = callable.body args := by
  rcases call_cases name args with ⟨hno, -⟩ | ⟨other, hother, hsame, hcall⟩
  · rw [← map_lowercase_callables, ← hname] at hno
    exact absurd (List.mem_map_of_mem member) hno
  · have heq : other = callable :=
      List.inj_on_of_nodup_map nodup_lowercase_callables hother member (hsame.trans hname.symm)
    subst heq
    rcases hcall with ⟨hrefused, -⟩ | ⟨-, hcall⟩
    · rw [haccepts] at hrefused
      cases hrefused
    · exact hcall

/-- A statement about a function that passes the arity check has one case for each built-in
function, with the arguments that the function takes. -/
theorem accepted_cases
    {motive : String → (List TypedValue → Evaluation TypedValue) → List TypedValue → Prop}
    (startsWith : ∀ whole part, motive "startsWith" startsWith [whole, part])
    (endsWith : ∀ whole part, motive "endsWith" endsWith [whole, part])
    (contains : ∀ whole part, motive "contains" contains [whole, part])
    (join : ∀ first rest, motive "join" join (first :: rest))
    (format : ∀ first rest, motive "format" format (first :: rest))
    (toJson : ∀ first, motive "toJSON" toJson [first])
    (fromJson : ∀ first, motive "fromJSON" fromJson [first])
    {callable : Callable} {args : List TypedValue} (member : callable ∈ callables)
    (haccepts : callable.arity.accepts args.length = true) :
    motive callable.name callable.body args := by
  have pair {p : List TypedValue → Prop} (h : ∀ a b, p [a, b])
      (hlength : (Arity.exactly 2).accepts args.length = true) : p args := by
    obtain ⟨a, b, rfl⟩ := List.length_eq_two.mp (beq_iff_eq.mp hlength)
    exact h a b
  have one {p : List TypedValue → Prop} (h : ∀ a, p [a])
      (hlength : (Arity.exactly 1).accepts args.length = true) : p args := by
    obtain ⟨a, rfl⟩ := List.length_eq_one_iff.mp (beq_iff_eq.mp hlength)
    exact h a
  have some {p : List TypedValue → Prop} (h : ∀ a rest, p (a :: rest))
      (hlength : (Arity.atLeast 1).accepts args.length = true) : p args := by
    obtain ⟨a, rest, rfl⟩ := List.exists_cons_of_length_pos (of_decide_eq_true hlength)
    exact h a rest
  simp only [callables, List.mem_cons, List.not_mem_nil, or_false] at member
  rcases member with rfl | rfl | rfl | rfl | rfl | rfl | rfl
  · exact pair startsWith haccepts
  · exact pair endsWith haccepts
  · exact pair contains haccepts
  · exact some join haccepts
  · exact some format haccepts
  · exact one toJson haccepts
  · exact one fromJson haccepts

theorem startsWith_pair (whole part : TypedValue) :
    startsWith [whole, part] =
      return .ofBool ((lowerText part).isPrefixOf (lowerText whole)) := rfl

theorem endsWith_pair (whole part : TypedValue) :
    endsWith [whole, part] =
      return .ofBool ((lowerText part).isSuffixOf (lowerText whole)) := rfl

def isContained (whole part : TypedValue) : Bool :=
  match whole.value with
  | .array _ items => items.any fun item => TypedValue.equal (.ofValue item) part
  | _ => isWithin (lowerText part) (lowerText whole)

theorem contains_pair (whole part : TypedValue) :
    contains [whole, part] = return .ofBool (isContained whole part) := by
  obtain ⟨v, ty⟩ := whole
  cases v <;> rfl

def separator : List TypedValue → String
  | [] => ","
  | arg :: _ => arg.toText

def joined (first : TypedValue) (rest : List TypedValue) : TypedValue :=
  match first.value with
  | .array _ items =>
      .ofString ((separator rest).intercalate
        (items.map fun item => (TypedValue.ofValue item).toText))
  | .object _ _ => .ofString ""
  | _ => first

theorem join_cons (first : TypedValue) (rest : List TypedValue) :
    join (first :: rest) = return joined first rest := by
  obtain ⟨v, ty⟩ := first
  cases v <;> cases rest <;> rfl

theorem format_cons (first : TypedValue) (rest : List TypedValue) :
    format (first :: rest) =
      match Template.expand (rest.map TypedValue.toText) first.toText.toList with
      | .ok text => return .ofString (String.ofList text)
      | .error fault => throw (.invalidArgument "format" (.template first.toText fault)) := rfl

theorem toJson_one (first : TypedValue) :
    toJson [first] = return .ofString (first.value.toJsonText .pretty) := rfl

theorem fromJson_one (first : TypedValue) :
    fromJson [first] =
      match Json.parse first.toText with
      | .ok json => do return .ofValue (← ofFresh (Value.ofJson json))
      | .error error => throw (.invalidArgument "fromJSON" (.json error)) := rfl

theorem joined_cases (first : TypedValue) (rest : List TypedValue) :
    (∃ text, joined first rest = .ofString text) ∨ joined first rest = first := by
  obtain ⟨v, ty⟩ := first
  cases v with
  | array | object => exact .inl ⟨_, rfl⟩
  | _ => exact .inr rfl

/-- A built-in function gives a value without parts, or is `join` and hands its first argument
on, or is `fromJSON` and makes a value of its own. -/
theorem body_ok_cases {callable : Callable} {args : List TypedValue} {r : TypedValue}
    {next last : Identity} (member : callable ∈ callables)
    (haccepts : callable.arity.accepts args.length = true)
    (h : callable.body args next = .ok (r, last)) :
    (∃ v, v.isPrimitive = true ∧ r = .ofValue v ∧ last = next) ∨
    (callable.name = "join" ∧ args.head? = some r ∧ last = next) ∨
    (callable.name = "fromJSON" ∧ ∃ first json v, args = [first] ∧
      Json.parse first.toText = .ok json ∧ ofFresh (Value.ofJson json) next = .ok (v, last) ∧
      r = .ofValue v) := by
  revert h
  refine accepted_cases (motive := fun name body args => body args next = .ok (r, last) →
    (∃ v, v.isPrimitive = true ∧ r = .ofValue v ∧ last = next) ∨
    (name = "join" ∧ args.head? = some r ∧ last = next) ∨
    (name = "fromJSON" ∧ ∃ first json v, args = [first] ∧ Json.parse first.toText = .ok json ∧
      ofFresh (Value.ofJson json) next = .ok (v, last) ∧ r = .ofValue v))
    ?startsWith ?endsWith ?contains ?join ?format ?toJson ?fromJson member haccepts
  case startsWith =>
    intro whole part h
    rw [startsWith_pair] at h
    cases h
    exact .inl ⟨_, rfl, rfl, rfl⟩
  case endsWith =>
    intro whole part h
    rw [endsWith_pair] at h
    cases h
    exact .inl ⟨_, rfl, rfl, rfl⟩
  case contains =>
    intro whole part h
    rw [contains_pair] at h
    cases h
    exact .inl ⟨_, rfl, rfl, rfl⟩
  case join =>
    intro first rest h
    rw [join_cons] at h
    cases h
    rcases joined_cases first rest with ⟨text, hjoined⟩ | hjoined
    · exact .inl ⟨.string text, rfl, hjoined, rfl⟩
    · exact .inr (.inl ⟨rfl, congrArg some hjoined.symm, rfl⟩)
  case format =>
    intro first rest h
    rw [format_cons] at h
    cases hexpand : Template.expand (rest.map TypedValue.toText) first.toText.toList with
    | ok text =>
        rw [hexpand] at h
        cases h
        exact .inl ⟨_, rfl, rfl, rfl⟩
    | error fault =>
        rw [hexpand] at h
        cases h
  case toJson =>
    intro first h
    rw [toJson_one] at h
    cases h
    exact .inl ⟨_, rfl, rfl, rfl⟩
  case fromJson =>
    intro first h
    rw [fromJson_one] at h
    cases hparse : Json.parse first.toText with
    | ok json =>
        rw [hparse] at h
        obtain ⟨v, mid, hv, h⟩ := bind_eq_ok.mp h
        cases h
        exact .inr (.inr ⟨rfl, first, json, v, rfl, hparse, hv, rfl⟩)
    | error error =>
        rw [hparse] at h
        cases h

/-- A call yields a value without parts, or is one of `join` and yields its first argument, or
is one of `fromJSON` and yields what it has made. -/
theorem call_ok_cases {name : String} {args : List TypedValue} {r : TypedValue}
    {next last : Identity} (h : registry.call name args next = .ok (r, last)) :
    (∃ v, v.isPrimitive = true ∧ r = .ofValue v ∧ last = next) ∨
    (Text.lowercase name = "join" ∧ args.head? = some r ∧ last = next) ∨
    (Text.lowercase name = "fromjson" ∧ ∃ json v,
      ofFresh (Value.ofJson json) next = .ok (v, last) ∧ r = .ofValue v) := by
  obtain ⟨callable, member, hname, haccepts, hbody⟩ := exists_body_of_call h
  rcases body_ok_cases member haccepts hbody with
    hprimitive | ⟨hjoin, hhead⟩ | ⟨hjson, -, json, v, -, -, hv, hr⟩
  · exact .inl hprimitive
  · have hlower : Text.lowercase "join" = "join" := by decide +kernel
    rw [hjoin, hlower] at hname
    exact .inr (.inl ⟨hname.symm, hhead⟩)
  · have hlower : Text.lowercase "fromJSON" = "fromjson" := by decide +kernel
    rw [hjson, hlower] at hname
    exact .inr (.inr ⟨hname.symm, json, v, hv, hr⟩)

theorem call_startsWith (whole part : TypedValue) :
    registry.call "startsWith" [whole, part] =
      return .ofBool ((lowerText part).isPrefixOf (lowerText whole)) := by
  have member : ⟨"startsWith", .exactly 2, startsWith⟩ ∈ callables := by simp [callables]
  rw [call_of_mem member rfl rfl]
  exact startsWith_pair whole part

theorem call_endsWith (whole part : TypedValue) :
    registry.call "endsWith" [whole, part] =
      return .ofBool ((lowerText part).isSuffixOf (lowerText whole)) := by
  have member : ⟨"endsWith", .exactly 2, endsWith⟩ ∈ callables := by simp [callables]
  rw [call_of_mem member rfl rfl]
  exact endsWith_pair whole part

theorem call_contains (whole part : TypedValue) :
    registry.call "contains" [whole, part] = return .ofBool (isContained whole part) := by
  have member : ⟨"contains", .exactly 2, contains⟩ ∈ callables := by simp [callables]
  rw [call_of_mem member rfl rfl]
  exact contains_pair whole part

theorem call_join (first : TypedValue) (rest : List TypedValue) :
    registry.call "join" (first :: rest) = return joined first rest := by
  have member : ⟨"join", .atLeast 1, join⟩ ∈ callables := by simp [callables]
  have haccepts : (Arity.atLeast 1).accepts (first :: rest).length = true := by
    simp [Arity.accepts]
  rw [call_of_mem member rfl haccepts]
  exact join_cons first rest

theorem call_format (first : TypedValue) (rest : List TypedValue) :
    registry.call "format" (first :: rest) =
      match Template.expand (rest.map TypedValue.toText) first.toText.toList with
      | .ok text => return .ofString (String.ofList text)
      | .error fault => throw (.invalidArgument "format" (.template first.toText fault)) := by
  have member : ⟨"format", .atLeast 1, format⟩ ∈ callables := by simp [callables]
  have haccepts : (Arity.atLeast 1).accepts (first :: rest).length = true := by
    simp [Arity.accepts]
  rw [call_of_mem member rfl haccepts]
  exact format_cons first rest

theorem call_toJson (r : TypedValue) (next : Identity) :
    registry.call "toJSON" [r] next = .ok (.ofString (r.value.toJsonText .pretty), next) := by
  have member : ⟨"toJSON", .exactly 1, toJson⟩ ∈ callables := by simp [callables]
  rw [call_of_mem member rfl rfl]
  rfl

theorem call_fromJson (text : String) :
    registry.call "fromJSON" [.ofString text] =
      match Json.parse text with
      | .ok json => do return .ofValue (← Evaluation.ofFresh (Value.ofJson json))
      | .error error => throw (.invalidArgument "fromJSON" (.json error)) := by
  have member : ⟨"fromJSON", .exactly 1, fromJson⟩ ∈ callables := by simp [callables]
  rw [call_of_mem member rfl rfl]
  rfl

end Builtin

end WorkflowExpr
