import WorkflowExpr.Proofs.Identity
import WorkflowExpr.Proofs.WholeNumbers

/-!
The laws of the comparison operators. Coercion treats both sides alike, so that exchanging the
operands exchanges the coerced sides. What is left then is the comparison of two values: two
numbers or two strings are compared in one of three ways, of which equality is one, and no
other values have an order.
-/

namespace WorkflowExpr

theorem Binary64.compare?_swap (a b : Binary64) :
    (a.compare? b).map Ordering.swap = b.compare? a := by
  unfold compare?
  cases a.position? with
  | none => cases b.position? <;> rfl
  | some x =>
      cases b.position? with
      | none => rfl
      | some y => exact congrArg some Std.OrientedCmp.eq_swap.symm

/-- Texts are compared by their folded characters, which makes a total preorder of them. -/
instance Text.transCmp_compareIgnoringCase : Std.TransCmp Text.compareIgnoringCase :=
  have folded : Std.TransCmp (List.compareLex (compareOn Char.toNat)) := inferInstance
  { eq_swap := folded.eq_swap, isLE_trans := folded.isLE_trans }

namespace Value

/-- Values that can be compared in three ways: two numbers, neither of them not-a-number, or
two strings. -/
inductive Comparable : Value → Value → Prop where
  | numbers {a b : Binary64} (ha : a.isNaN = false) (hb : b.isNaN = false) :
      Comparable (.number a) (.number b)
  | strings (a b : String) : Comparable (.string a) (.string b)

variable {v w : Value}

theorem order?_swap (v w : Value) : (v.order? w).map Ordering.swap = w.order? v := by
  cases v with
  | number a =>
      cases w with
      | number b => exact Binary64.compare?_swap a b
      | _ => rfl
  | string a =>
      cases w with
      | string b => exact congrArg some Std.OrientedCmp.eq_swap.symm
      | _ => rfl
  | _ => cases w <;> rfl

/-- Values that have an order are equal when neither comes before the other. -/
theorem equal_of_order? {o : Ordering} (h : v.order? w = some o) : v.equal w = (o == .eq) := by
  cases v with
  | number a =>
      cases w with
      | number b =>
          change a.compare? b = some o at h
          rw [equal, Binary64.numericEq, h]
          cases o <;> rfl
      | _ => cases h
  | string a =>
      cases w with
      | string b =>
          cases h
          rfl
      | _ => cases h
  | _ => cases w <;> cases h

theorem equal_comm (v w : Value) : v.equal w = w.equal v := by
  cases horder : v.order? w with
  | some o =>
      have hswap : w.order? v = some o.swap := by
        rw [← order?_swap, horder, Option.map_some]
      rw [equal_of_order? horder, equal_of_order? hswap]
      cases o <;> rfl
  | none =>
      cases v with
      | number a =>
          cases w with
          | number b =>
              have hswap := Binary64.compare?_swap a b
              change a.compare? b = none at horder
              rw [horder, Option.map_none] at hswap
              rw [equal, equal, Binary64.numericEq, Binary64.numericEq, horder, ← hswap]
          | _ => rfl
      | string a =>
          cases w with
          | string b => cases horder
          | _ => rfl
      | bool a =>
          cases w with
          | bool b => exact Bool.beq_comm
          | _ => rfl
      | array i items =>
          cases w with
          | array j others => exact Bool.beq_comm
          | _ => rfl
      | object i fields =>
          cases w with
          | object j others => exact Bool.beq_comm
          | _ => rfl
      | null => cases w <;> rfl

theorem Comparable.exists_order (h : v.Comparable w) : ∃ o, v.order? w = some o := by
  cases h with
  | @numbers a b ha hb =>
      cases a with
      | nan => cases ha
      | _ =>
          cases b with
          | nan => cases hb
          | _ => exact ⟨_, rfl⟩
  | strings a b => exact ⟨_, rfl⟩

end Value

namespace TypedValue

variable {l r : TypedValue}

theorem meet_swap (l r : TypedValue) : (meet l r).swap = meet r l := by
  obtain ⟨v, _⟩ := l
  obtain ⟨w, _⟩ := r
  cases v <;> cases w <;> rfl

/-- Coercion does not prefer one side. -/
theorem coerce_swap (l r : TypedValue) : (coerce l r).swap = coerce r l := by
  unfold coerce
  by_cases h : l.value.tag = r.value.tag
  · rw [if_pos h, if_pos h.symm]
    rfl
  · rw [if_neg h, if_neg (Ne.symm h), meet_swap]

theorem equal_comm (l r : TypedValue) : l.equal r = r.equal l := by
  have hswap := coerce_swap l r
  unfold equal
  rw [← hswap]
  exact Value.equal_comm _ _

theorem order?_swap (l r : TypedValue) : (l.order? r).map Ordering.swap = r.order? l := by
  have hswap := coerce_swap l r
  unfold order?
  rw [← hswap]
  exact Value.order?_swap _ _

/-- Results that have an order are equal when neither comes before the other. -/
theorem equal_of_order? {o : Ordering} (h : l.order? r = some o) : l.equal r = (o == .eq) :=
  Value.equal_of_order? h

theorem greater_eq_less (l r : TypedValue) : l.greater r = r.less l := by
  rw [greater, less, ← order?_swap l r]
  cases l.order? r with
  | none => rfl
  | some o => cases o <;> rfl

/-- The answers for two results whose order is known. -/
theorem answers_of_order? {o : Ordering} (h : l.order? r = some o) :
    l.less r = (o == .lt) ∧ l.equal r = (o == .eq) ∧ l.greater r = (o == .gt) := by
  refine ⟨?_, equal_of_order? h, ?_⟩
  · rw [less, h]
    cases o <;> rfl
  · rw [greater, h]
    cases o <;> rfl

/-- Results without an order are at most equal. -/
theorem answers_of_unordered (h : l.order? r = none) :
    l.less r = false ∧ l.greater r = false := by
  rw [less, greater, h]
  exact ⟨rfl, rfl⟩

/-- A container is equal only to itself. -/
theorem equal_of_container {l : TypedValue} (h : l.value.isPrimitive = false) (r : TypedValue) :
    l.equal r = l.value.sameIdentity r.value := by
  obtain ⟨v, ty⟩ := l
  obtain ⟨w, ty'⟩ := r
  cases v with
  | array | object => cases w <;> rfl
  | _ => cases h

/-- The comparison operators obey the laws of a three-way comparison: exchanging the operands
turns each operator into its mirror image, at most one of less, equal and greater holds, and
the other two operators are what they are called. Of two numbers or two strings exactly one of
the three holds. The types of the operands play no part. -/
theorem comparison_laws (l r : TypedValue) :
    (l.equal r = r.equal l ∧ l.greater r = r.less l ∧ l.greaterEq r = r.lessEq l) ∧
    [l.less r, l.equal r, l.greater r].count true ≤ 1 ∧
    ((l.greaterEq r = true ∧ l.lessEq r = true) ↔ l.equal r = true) ∧
    ((coerce l r).1.value.Comparable (coerce l r).2.value →
      [l.less r, l.equal r, l.greater r].count true = 1 ∧ l.greaterEq r = !l.less r) ∧
    ∀ l' r' : TypedValue, l'.value = l.value → r'.value = r.value →
      l'.equal r' = l.equal r ∧ l'.less r' = l.less r ∧ l'.greater r' = l.greater r ∧
        l'.lessEq r' = l.lessEq r ∧ l'.greaterEq r' = l.greaterEq r := by
  have hequal := equal_comm l r
  have hgreater := greater_eq_less l r
  refine ⟨⟨hequal, hgreater, ?_⟩, ?_, ?_, ?_, ?_⟩
  · rw [greaterEq, lessEq, hequal, hgreater]
  · cases horder : l.order? r with
    | none =>
        obtain ⟨hless, hgreater⟩ := answers_of_unordered horder
        rw [hless, hgreater]
        cases l.equal r <;> decide
    | some o =>
        obtain ⟨hless, hequal, hgreater⟩ := answers_of_order? horder
        rw [hless, hequal, hgreater]
        cases o <;> decide
  · rw [greaterEq, lessEq]
    cases horder : l.order? r with
    | none =>
        obtain ⟨hless, hgreater⟩ := answers_of_unordered horder
        simp [hless, hgreater]
    | some o =>
        obtain ⟨hless, hequal, hgreater⟩ := answers_of_order? horder
        rw [hless, hequal, hgreater]
        cases o <;> decide
  · intro hcomparable
    obtain ⟨o, horder⟩ := hcomparable.exists_order
    obtain ⟨hless, hequal, hgreater⟩ := answers_of_order? horder
    rw [greaterEq, hless, hequal, hgreater]
    cases o <;> decide
  · intro l' r' hl hr
    have hequal : l'.equal r' = l.equal r := by
      rw [equal_eq_ofValue l', equal_eq_ofValue l, hl, hr]
    have horder : l'.order? r' = l.order? r := by
      rw [order?_eq_ofValue l', order?_eq_ofValue l, hl, hr]
    simp only [less, greater, lessEq, greaterEq, hequal, horder, and_self]

/-- The string `10` compares with the number nine as a number, also when nothing is known
about its type. -/
theorem comparison_laws_text :
    (coerce (ofString "10") (ofNumber (.ofInt 9))).1.value.Comparable
      (coerce (ofString "10") (ofNumber (.ofInt 9))).2.value ∧
    ([(ofString "10").less (ofNumber (.ofInt 9)), (ofString "10").equal (ofNumber (.ofInt 9)),
        (ofString "10").greater (ofNumber (.ofInt 9))].count true = 1 ∧
      (ofString "10").greaterEq (ofNumber (.ofInt 9)) =
        !(ofString "10").less (ofNumber (.ofInt 9))) ∧
    greater ⟨.string "10", .any⟩ (ofNumber (.ofInt 9)) =
      (ofString "10").greater (ofNumber (.ofInt 9)) := by
  have hread : (Numeral.read "10").isNaN = false := by decide +kernel
  have hcomparable : (coerce (ofString "10") (ofNumber (.ofInt 9))).1.value.Comparable
      (coerce (ofString "10") (ofNumber (.ofInt 9))).2.value :=
    .numbers hread (Binary64.isNaN_ofInt 9)
  have laws := comparison_laws (ofString "10") (ofNumber (.ofInt 9))
  obtain ⟨-, -, hexact, hvalues⟩ := laws.2
  exact ⟨hcomparable, hexact hcomparable,
    (hvalues ⟨.string "10", .any⟩ (ofNumber (.ofInt 9)) rfl rfl).2.2.1⟩

end TypedValue

end WorkflowExpr
