import WorkflowExpr.Proofs.Calls
import WorkflowExpr.Proofs.Indexing
import WorkflowExpr.Proofs.Paths
import WorkflowExpr.Proofs.Transitivity

/-!
Membership in an array. The built-in function asks whether an element matches the item, index
access and the equality operator ask it of one element at a time, and the two agree. How values
match does not depend on where they stand, so the order of the elements plays no part and an
array put together from two has the elements of both.
-/

namespace WorkflowExpr

/-- Not even not-a-number is equal to it. -/
theorem Binary64.not_numericEq_nan (x : Binary64) :
    ¬ x.numericEq .nan = true ∧ ¬ Binary64.numericEq .nan x = true := by
  simp only [numericEq_iff]
  constructor
  · rintro ⟨place, -, hnan⟩
    cases hnan
  · rintro ⟨place, hnan, -⟩
    cases hnan

namespace Value

variable {v w : Value}

/-- How two values match under the equality operator: as the same container, as two strings but
for case, and as numbers where neither has parts and one is no string. -/
inductive Matches : Value → Value → Prop where
  | containers {v w : Value} (same : v.sameIdentity w = true) : Matches v w
  | strings {s t : String} (folded : Text.eqIgnoringCase s t = true) :
      Matches (.string s) (.string t)
  | numbers {v w : Value} (left : v.isPrimitive = true) (right : w.isPrimitive = true)
      (kinds : v.tag ≠ .string ∨ w.tag ≠ .string)
      (numeric : v.toNumber.numericEq w.toNumber = true) : Matches v w

theorem sameIdentity_of_isPrimitive (h : v.isPrimitive = true) (w : Value) :
    v.sameIdentity w = false := by
  cases v with
  | array | object => cases h
  | _ => cases w <;> rfl

/-- The equality operator is true just for values that match. -/
theorem equal_ofValue_iff :
    (TypedValue.ofValue v).equal (.ofValue w) = true ↔ v.Matches w := by
  constructor
  · intro hequal
    have hparts : v.isPrimitive = w.isPrimitive := TypedValue.isPrimitive_eq_of_equal hequal
    cases hv : v.isPrimitive with
    | false =>
        rw [TypedValue.equal_of_container hv] at hequal
        exact .containers hequal
    | true =>
        rw [hv] at hparts
        by_cases hkinds : v.tag = .string ∧ w.tag = .string
        · obtain ⟨hs, ht⟩ := hkinds
          rw [TypedValue.equal_of_tag_eq (hs.trans ht.symm)] at hequal
          obtain ⟨s, rfl⟩ := TypedValue.exists_string (r := .ofValue v) hs
          obtain ⟨t, rfl⟩ := TypedValue.exists_string (r := .ofValue w) ht
          exact .strings hequal
        · have hkinds := not_and_or.mp hkinds
          rw [TypedValue.equal_of_numeric hv hparts.symm hkinds] at hequal
          exact .numbers hv hparts.symm hkinds hequal
  · intro hmatches
    cases hmatches with
    | containers same =>
        have hv : v.isPrimitive = false := by
          rw [← Bool.not_eq_true]
          intro hprimitive
          rw [sameIdentity_of_isPrimitive hprimitive] at same
          cases same
        rw [TypedValue.equal_of_container hv]
        exact same
    | strings folded => exact folded
    | numbers left right kinds numeric =>
        rw [TypedValue.equal_of_numeric left right kinds]
        exact numeric

/-- What is not a number matches nothing, not even itself. -/
theorem not_matches_nan (v : Value) : ¬ v.Matches (.number .nan) ∧ ¬ Matches (.number .nan) v := by
  constructor
  · intro hmatches
    cases hmatches with
    | containers same => cases not_isPrimitive_of_sameIdentity same
    | numbers _ _ _ numeric => exact (Binary64.not_numericEq_nan v.toNumber).1 numeric
  · intro hmatches
    cases hmatches with
    | containers same =>
        rw [sameIdentity_of_isPrimitive rfl] at same
        cases same
    | numbers _ _ _ numeric => exact (Binary64.not_numericEq_nan v.toNumber).2 numeric

end Value

section Numbers

variable {α : Type} {items : List α} {item : α}

theorem numbered?_of_lt {number : Int} (hnonneg : 0 ≤ number)
    (hless : number.toNat < items.length) :
    numbered? items number = some items[number.toNat] := by
  rw [numbered?, if_neg (not_lt.mpr hnonneg), List.getElem?_eq_getElem hless]

/-- Every item has a number that a literal can write. -/
theorem exists_number_of_mem (hlength : items.length ≤ 2 ^ 53) (h : item ∈ items) :
    ∃ number : Int64, 0 ≤ number.toInt ∧ number.toInt < items.length ∧
      numbered? items number.toInt = some item := by
  obtain ⟨place, hplace, rfl⟩ := List.getElem_of_mem h
  have hnumber : (Int64.ofInt place).toInt = place := by
    apply Int64.toInt_ofInt_of_le <;> omega
  refine ⟨.ofInt place, ?_⟩
  rw [hnumber]
  exact ⟨Int.natCast_nonneg place, by omega, numbered?_of_lt (Int.natCast_nonneg place) hplace⟩

end Numbers

namespace Expr

open Eval Evaluation

variable {registry : Registry} {ctx : Context} {whole part : String} {identity next : Identity}
  {items : List Value} {v : Value}

/-- The call that asks whether the array of one name has an element that matches the value of
another. -/
def membership (span : Span) (whole part : String) : Expr :=
  .call span ⟨"contains", span⟩ [.var span whole, .var span part]

def elementEq (span : Span) (whole part : String) (number : Int64) : Expr :=
  .compare span .eq (.index span (.var span whole) (.int span number)) (.var span part)

theorem eval_var (h : ctx.get? whole = some v) (span : Span) (next : Identity) :
    (Expr.var span whole).eval registry ctx next = .ok (.ofValue v, next) := by
  rw [Expr.eval]
  exact variableValue_eq_ok.mpr ⟨v, h, rfl, rfl⟩

/-- The call goes through the elements. -/
theorem eval_membership_any (hwhole : ctx.get? whole = some (.array identity items))
    (hpart : ctx.get? part = some v) (span : Span) (next : Identity) :
    (membership span whole part).eval Builtin.registry ctx next =
      .ok (.ofBool (items.any fun item => (TypedValue.ofValue item).equal (.ofValue v)), next) := by
  have hargs : evalArgs Builtin.registry ctx [.var span whole, .var span part] next =
      .ok ([.ofValue (.array identity items), .ofValue v], next) :=
    evalArgs_cons_eq_ok.mpr ⟨_, next, _, eval_var hwhole span next,
      evalArgs_cons_eq_ok.mpr ⟨_, next, [], eval_var hpart span next, rfl, rfl⟩, rfl⟩
  rw [membership, Expr.eval, bind_of_ok hargs, Builtin.call_contains]
  rfl

/-- The comparison looks at one element, if the array has one with the number. -/
theorem eval_elementEq (hwhole : ctx.get? whole = some (.array identity items))
    (hpart : ctx.get? part = some v) (hlength : items.length ≤ 2 ^ 53) {item : Value}
    {number : Int64} (hitem : numbered? items number.toInt = some item) (span : Span)
    (next : Identity) :
    (elementEq span whole part number).eval registry ctx next =
      .ok (.ofBool ((TypedValue.ofValue item).equal (.ofValue v)), next) := by
  have hindex : (Expr.index span (.var span whole) (.int span number)).eval registry ctx next =
      .ok (.ofValue item, next) := by
    have hnumber : (Expr.int span number).eval registry ctx next =
        .ok (.ofNumber (.ofInt number.toInt), next) := by
      rw [Expr.eval, pure_run]
    have hbound : items.length ≤ Binary64.maxWhole := by
      rw [Binary64.maxWhole_eq]
      exact hlength
    rw [eval_index_of_array span (eval_var hwhole span next) rfl hnumber,
      TypedValue.toNumber_ofNumber, itemAt_ofInt hbound, hitem]
  rw [elementEq, Expr.eval, bind_of_ok hindex, bind_of_ok (eval_var hpart span next)]
  rfl

end Expr

section Main

open Eval Evaluation

variable {ctx : Context} {whole part : String} {identity : Identity}
  {items : List Value} {v : Value}

/-- Whether an array contains a value. The answer of the function is yes just if an element with
some number is equal to the value under the operator, that is, if one of the elements matches the
value, which none does if the value is not a number. It is the same for the elements in another
order, and for two arrays put together it is yes if it is for one of them. -/
theorem Expr.eval_membership (hwhole : ctx.get? whole = some (.array identity items))
    (hpart : ctx.get? part = some v) (hlength : items.length ≤ 2 ^ 53) (span : Span)
    (next : Identity) :
    ∃ answer : Bool,
      (membership span whole part).eval Builtin.registry ctx next =
        .ok (.ofBool answer, next) ∧
      (answer = true ↔ ∃ number : Int64, 0 ≤ number.toInt ∧ number.toInt < items.length ∧
        (elementEq span whole part number).eval Builtin.registry ctx next =
          .ok (.ofBool true, next)) ∧
      (answer = true ↔ ∃ item ∈ items, item.Matches v) ∧
      (v = .number .nan → answer = false) ∧
      (∀ ctx' identity' items', items'.Perm items →
        ctx'.get? whole = some (.array identity' items') → ctx'.get? part = some v →
        (membership span whole part).eval Builtin.registry ctx' next =
          .ok (.ofBool answer, next)) ∧
      ∀ front back, items = front ++ back → ∀ ctx₁ ctx₂ identity₁ identity₂,
        ctx₁.get? whole = some (.array identity₁ front) → ctx₁.get? part = some v →
        ctx₂.get? whole = some (.array identity₂ back) → ctx₂.get? part = some v →
        ∃ first second : Bool,
          (membership span whole part).eval Builtin.registry ctx₁ next =
            .ok (.ofBool first, next) ∧
          (membership span whole part).eval Builtin.registry ctx₂ next =
            .ok (.ofBool second, next) ∧
          answer = (first || second) := by
  have hmatches : (items.any fun item => (TypedValue.ofValue item).equal (.ofValue v)) = true ↔
      ∃ item ∈ items, item.Matches v := by
    simp only [List.any_eq_true, Value.equal_ofValue_iff]
  refine ⟨_, eval_membership_any hwhole hpart span next, ?_, hmatches, ?_, ?_, ?_⟩
  · rw [List.any_eq_true]
    constructor
    · rintro ⟨item, member, hequal⟩
      obtain ⟨number, hnonneg, hless, hitem⟩ := exists_number_of_mem hlength member
      refine ⟨number, hnonneg, hless, ?_⟩
      rw [eval_elementEq hwhole hpart hlength hitem, hequal]
    · rintro ⟨number, hnonneg, hless, heval⟩
      have hplace : number.toInt.toNat < items.length := by omega
      have hitem := numbered?_of_lt hnonneg hplace
      rw [eval_elementEq hwhole hpart hlength hitem, ok_ofBool_inj] at heval
      exact ⟨_, List.getElem_mem hplace, heval⟩
  · rintro rfl
    rw [← Bool.not_eq_true, hmatches]
    rintro ⟨item, -, hnan⟩
    exact (Value.not_matches_nan item).1 hnan
  · intro ctx' identity' items' hperm hwhole' hpart'
    rw [eval_membership_any hwhole' hpart', hperm.any_eq]
  · rintro front back rfl ctx₁ ctx₂ identity₁ identity₂ hfront hpart₁ hback hpart₂
    exact ⟨_, _, eval_membership_any hfront hpart₁ span next,
      eval_membership_any hback hpart₂ span next, List.any_append⟩

/-- A context with an array of two strings, a number and an array, and a string that one of the
two differs from in case only. -/
def mixedContext : Context :=
  .ofList [("a", .array 0 [.string "x", .string "Main", .number .nan, .array 1 []]),
    ("x", .string "MAIN")]

/-- The second element matches. -/
theorem Expr.eval_membership_mixed :
    (membership .nowhere "a" "x").eval Builtin.registry mixedContext 2 =
        .ok (.ofBool true, 2) ∧
      ∃ number : Int64, 0 ≤ number.toInt ∧ number.toInt < 4 ∧
        (elementEq .nowhere "a" "x" number).eval Builtin.registry mixedContext 2 =
          .ok (.ofBool true, 2) := by
  have hwhole : mixedContext.get? "a" =
      some (.array 0 [.string "x", .string "Main", .number .nan, .array 1 []]) := rfl
  have hpart : mixedContext.get? "x" = some (.string "MAIN") := rfl
  obtain ⟨answer, heval, hnumber, hmatches, -⟩ :=
    eval_membership hwhole hpart (by decide) .nowhere 2
  have hfolded : Text.eqIgnoringCase "Main" "MAIN" = true := by decide +kernel
  obtain rfl : answer = true := hmatches.mpr ⟨.string "Main", by simp, .strings hfolded⟩
  exact ⟨heval, hnumber.mp rfl⟩

end Main

end WorkflowExpr
