import WorkflowExpr.Proofs.CaseFolding
import WorkflowExpr.Proofs.Comparison

/-!
Chains of comparisons. Among values that are no strings equality is transitive, whatever their
kinds: values without parts are equal as numbers, containers by identity, and never one of each.
Among strings it is transitive because all of them are folded alike. A number between two
strings breaks the chain. Within one kind, the order is a strict one that does not tell equal
values apart, and strings have a total preorder.
-/

namespace WorkflowExpr

namespace Binary64

variable {a b c : Binary64}

theorem compare?_eq_lt_iff :
    a.compare? b = some .lt ↔
      ∃ x y, a.position? = some x ∧ b.position? = some y ∧ x < y := by
  rw [compare?]
  cases a.position? with
  | none => simp
  | some x =>
      cases b.position? with
      | none => simp
      | some y => simp [Int.compare_eq_lt]

theorem numericEq_trans (hab : a.numericEq b = true) (hbc : b.numericEq c = true) :
    a.numericEq c = true := by
  obtain ⟨x, ha, hb⟩ := numericEq_iff.mp hab
  obtain ⟨y, hb', hc⟩ := numericEq_iff.mp hbc
  cases hb.symm.trans hb'
  exact numericEq_of_position? ha hc

theorem compare?_trans (hab : a.compare? b = some .lt) (hbc : b.compare? c = some .lt) :
    a.compare? c = some .lt := by
  obtain ⟨x, y, ha, hb, hxy⟩ := compare?_eq_lt_iff.mp hab
  obtain ⟨y', z, hb', hc, hyz⟩ := compare?_eq_lt_iff.mp hbc
  cases hb.symm.trans hb'
  exact compare?_eq_lt_iff.mpr ⟨x, z, ha, hc, hxy.trans hyz⟩

theorem compare?_congr_left (h : a.numericEq b = true) (c : Binary64) :
    a.compare? c = b.compare? c := by
  obtain ⟨x, ha, hb⟩ := numericEq_iff.mp h
  rw [compare?, compare?, ha, hb]

end Binary64

namespace Value

variable {v w u : Value}

theorem sameIdentity_trans (hvw : v.sameIdentity w = true) (hwu : w.sameIdentity u = true) :
    v.sameIdentity u = true := by
  cases v with
  | array i items =>
      cases w with
      | array j others =>
          cases u with
          | array k _ => exact beq_iff_eq.mpr ((beq_iff_eq.mp hvw).trans (beq_iff_eq.mp hwu))
          | _ => cases hwu
      | _ => cases hvw
  | object i fields =>
      cases w with
      | object j others =>
          cases u with
          | object k _ => exact beq_iff_eq.mpr ((beq_iff_eq.mp hvw).trans (beq_iff_eq.mp hwu))
          | _ => cases hwu
      | _ => cases hvw
  | _ => cases hvw

theorem not_isPrimitive_of_sameIdentity (h : v.sameIdentity w = true) :
    w.isPrimitive = false := by
  cases w with
  | array | object => rfl
  | _ => cases v <;> cases h

/-- Nothing comes before itself. -/
theorem order?_self_ne_lt (v : Value) : v.order? v ≠ some .lt := by
  intro h
  have hswap := order?_swap v v
  rw [h] at hswap
  cases hswap

theorem order?_trans (hvw : v.order? w = some .lt) (hwu : w.order? u = some .lt) :
    v.order? u = some .lt := by
  cases v with
  | number a =>
      cases w with
      | number b =>
          cases u with
          | number c => exact Binary64.compare?_trans hvw hwu
          | _ => cases hwu
      | _ => cases hvw
  | string a =>
      cases w with
      | string b =>
          cases u with
          | string c =>
              have hlt := Std.TransCmp.lt_trans (Option.some.inj hvw) (Option.some.inj hwu)
              exact congrArg some hlt
          | _ => cases hwu
      | _ => cases hvw
  | _ => cases hvw

/-- What is equal has the same place in the order. -/
theorem order?_congr_left (h : v.equal w = true) (u : Value) : v.order? u = w.order? u := by
  cases v with
  | number a =>
      cases w with
      | number b =>
          cases u with
          | number c => exact Binary64.compare?_congr_left h c
          | _ => rfl
      | _ => cases h
  | string a =>
      cases w with
      | string b =>
          cases u with
          | string c =>
              have hfold := (Text.eqIgnoringCase_iff a b).mp h
              rw [order?, order?, Text.compareIgnoringCase, Text.compareIgnoringCase, hfold]
          | _ => rfl
      | _ => cases h
  | null =>
      cases w with
      | null => rfl
      | _ => cases h
  | bool a =>
      cases w with
      | bool b => rfl
      | _ => cases h
  | array i items =>
      cases w with
      | array j others => rfl
      | _ => cases h
  | object i fields =>
      cases w with
      | object j others => rfl
      | _ => cases h

theorem order?_congr_right (h : v.equal w = true) (u : Value) : u.order? v = u.order? w := by
  rw [← order?_swap v u, ← order?_swap w u, order?_congr_left h]

/-- Truth values are the same exactly when they are as numbers. -/
theorem numericEq_toNumber_bool (a b : Bool) :
    (Value.bool a).toNumber.numericEq (Value.bool b).toNumber = (a == b) := by
  cases a <;> cases b <;> decide +kernel

end Value

namespace TypedValue

variable {l r a b c : TypedValue}

theorem equal_of_tag_eq (h : l.value.tag = r.value.tag) : l.equal r = l.value.equal r.value := by
  rw [equal, coerce, if_pos h]

theorem less_of_tag_eq (h : l.value.tag = r.value.tag) :
    l.less r = (l.value.order? r.value == some .lt) := by
  rw [less, order?, coerce, if_pos h]

/-- A container is never equal to a value without parts. -/
theorem isPrimitive_eq_of_equal (h : l.equal r = true) :
    l.value.isPrimitive = r.value.isPrimitive := by
  have passes {l r : TypedValue} (h : l.equal r = true) (hl : l.value.isPrimitive = false) :
      r.value.isPrimitive = false := by
    rw [equal_of_container hl] at h
    exact Value.not_isPrimitive_of_sameIdentity h
  cases hl : l.value.isPrimitive with
  | false => exact (passes h hl).symm
  | true =>
      cases hr : r.value.isPrimitive with
      | false =>
          rw [equal_comm] at h
          rw [passes h hr] at hl
          cases hl
      | true => rfl

/-- Values without parts are equal when they are as numbers, unless both are strings. -/
theorem equal_of_numeric (hl : l.value.isPrimitive = true) (hr : r.value.isPrimitive = true)
    (hne : l.value.tag ≠ .string ∨ r.value.tag ≠ .string) :
    l.equal r = l.value.toNumber.numericEq r.value.toNumber := by
  obtain ⟨v, ty⟩ := l
  obtain ⟨w, ty'⟩ := r
  cases v with
  | null =>
      cases w with
      | null => exact (Binary64.numericEq_self rfl).symm
      | bool | number | string => rfl
      | array | object => cases hr
  | bool a =>
      cases w with
      | bool b => exact (Value.numericEq_toNumber_bool a b).symm
      | null | number | string => rfl
      | array | object => cases hr
  | number n =>
      cases w with
      | null | bool | number | string => rfl
      | array | object => cases hr
  | string s =>
      cases w with
      | string t => exact absurd rfl (hne.elim id id)
      | null | bool | number => rfl
      | array | object => cases hr
  | array | object => cases hl

theorem equal_trans_of_not_string (ha : a.value.tag ≠ .string) (hb : b.value.tag ≠ .string)
    (hab : a.equal b = true) (hbc : b.equal c = true) : a.equal c = true := by
  have hfirst := isPrimitive_eq_of_equal hab
  have hsecond := isPrimitive_eq_of_equal hbc
  cases hprimitive : b.value.isPrimitive with
  | false =>
      rw [hprimitive] at hfirst
      rw [equal_of_container hfirst] at hab ⊢
      rw [equal_of_container hprimitive] at hbc
      exact Value.sameIdentity_trans hab hbc
  | true =>
      rw [hprimitive] at hfirst hsecond
      rw [equal_of_numeric hfirst hprimitive (.inl ha)] at hab
      rw [equal_of_numeric hprimitive hsecond.symm (.inl hb)] at hbc
      rw [equal_of_numeric hfirst hsecond.symm (.inl ha)]
      exact Binary64.numericEq_trans hab hbc

theorem exists_string (h : r.value.tag = .string) : ∃ s, r.value = .string s := by
  obtain ⟨v, ty⟩ := r
  cases v with
  | string s => exact ⟨s, rfl⟩
  | _ => cases h

theorem equal_trans_of_string (ha : a.value.tag = .string) (hb : b.value.tag = .string)
    (hc : c.value.tag = .string) (hab : a.equal b = true) (hbc : b.equal c = true) :
    a.equal c = true := by
  rw [equal_of_tag_eq (ha.trans hb.symm)] at hab
  rw [equal_of_tag_eq (hb.trans hc.symm)] at hbc
  rw [equal_of_tag_eq (ha.trans hc.symm)]
  obtain ⟨s, hs⟩ := exists_string ha
  obtain ⟨t, ht⟩ := exists_string hb
  obtain ⟨u, hu⟩ := exists_string hc
  rw [hs, ht, Value.equal, Text.eqIgnoringCase_iff] at hab
  rw [ht, hu, Value.equal, Text.eqIgnoringCase_iff] at hbc
  rw [hs, hu, Value.equal, Text.eqIgnoringCase_iff]
  exact hab.trans hbc

/-- Two strings are equal when neither comes before the other. -/
theorem equal_iff_of_string (ha : a.value.tag = .string) (hb : b.value.tag = .string) :
    a.equal b = true ↔ a.less b = false ∧ b.less a = false := by
  obtain ⟨s, hs⟩ := exists_string ha
  obtain ⟨t, ht⟩ := exists_string hb
  have horder : a.order? b = some (Text.compareIgnoringCase s t) := by
    rw [order?, coerce, if_pos (ha.trans hb.symm), hs, ht, Value.order?]
  obtain ⟨hless, hequal, hgreater⟩ := answers_of_order? horder
  rw [← greater_eq_less a b, hless, hequal, hgreater]
  cases Text.compareIgnoringCase s t <;> decide

/-- Equality is transitive on values that are no strings, and on strings. On values of one kind
the order is irreflexive and transitive, and equal values have the same values before and after
them. Strings are equal when neither comes before the other, and folding case makes a total
preorder of them, also where a folded character is several. -/
theorem comparison_transitive (a b c : TypedValue) :
    ((∀ r ∈ [a, b, c], r.value.tag ≠ .string) ∨ (∀ r ∈ [a, b, c], r.value.tag = .string) →
      a.equal b = true → b.equal c = true → a.equal c = true) ∧
    (a.value.tag = b.value.tag → b.value.tag = c.value.tag →
      a.less a = false ∧
      (a.less b = true → b.less c = true → a.less c = true) ∧
      (a.equal b = true → a.less c = b.less c ∧ c.less a = c.less b)) ∧
    (a.value.tag = .string → b.value.tag = .string →
      (a.equal b = true ↔ a.less b = false ∧ b.less a = false)) ∧
    ∀ s t u : String,
      (Text.compareIgnoringCase s t).swap = Text.compareIgnoringCase t s ∧
      ((Text.compareIgnoringCase s t).isLE = true ∨
        (Text.compareIgnoringCase t s).isLE = true) ∧
      ((Text.compareIgnoringCase s t).isLE = true → (Text.compareIgnoringCase t u).isLE = true →
        (Text.compareIgnoringCase s u).isLE = true) := by
  refine ⟨?_, ?_, equal_iff_of_string, ?_⟩
  · rintro (hothers | hstrings)
    · simp only [List.forall_mem_cons] at hothers
      obtain ⟨ha, hb, -, -⟩ := hothers
      exact equal_trans_of_not_string ha hb
    · simp only [List.forall_mem_cons] at hstrings
      obtain ⟨ha, hb, hc, -⟩ := hstrings
      exact equal_trans_of_string ha hb hc
  · intro hab hbc
    refine ⟨?_, ?_, ?_⟩
    · rw [less_of_tag_eq rfl, beq_eq_false_iff_ne]
      exact Value.order?_self_ne_lt a.value
    · rw [less_of_tag_eq hab, less_of_tag_eq hbc, less_of_tag_eq (hab.trans hbc)]
      simp only [beq_iff_eq]
      exact Value.order?_trans
    · intro hequal
      rw [equal_of_tag_eq hab] at hequal
      rw [less_of_tag_eq (hab.trans hbc), less_of_tag_eq hbc, less_of_tag_eq (hab.trans hbc).symm,
        less_of_tag_eq hbc.symm, Value.order?_congr_left hequal,
        Value.order?_congr_right hequal]
      exact ⟨rfl, rfl⟩
  · intro s t u
    have hswap : Text.compareIgnoringCase t s = (Text.compareIgnoringCase s t).swap :=
      Std.OrientedCmp.eq_swap
    refine ⟨hswap.symm, ?_, Std.TransCmp.isLE_trans⟩
    rw [hswap]
    cases Text.compareIgnoringCase s t <;> decide

/-- Null is equal to negative zero because both are equal to false, and a dotted capital comes
before a letter because its two folded characters do. -/
theorem comparison_transitive_folded :
    ((ofValue .null).equal (ofBool false) = true ∧
      (ofBool false).equal (ofNumber (.finite true .zero)) = true ∧
      (ofValue .null).equal (ofNumber (.finite true .zero)) = true) ∧
    (ofString "İ").equal (ofString "i\u0307") = true ∧
      (ofString "i\u0307").less (ofString "J") = true ∧
      (ofString "İ").less (ofString "J") = true := by
  constructor
  · have hothers : ∀ r ∈ [ofValue .null, ofBool false, ofNumber (.finite true .zero)],
        r.value.tag ≠ .string := by decide
    have hnull : (ofValue .null).equal (ofBool false) = true := by decide +kernel
    have hfalse : (ofBool false).equal (ofNumber (.finite true .zero)) = true := by
      decide +kernel
    exact ⟨hnull, hfalse, (comparison_transitive _ _ _).1 (.inl hothers) hnull hfalse⟩
  · have hfolded : (ofString "İ").equal (ofString "i\u0307") = true := by decide +kernel
    have hless : (ofString "i\u0307").less (ofString "J") = true := by decide +kernel
    obtain ⟨-, -, hcongr⟩ :=
      (comparison_transitive (ofString "İ") (ofString "i\u0307") (ofString "J")).2.1 rfl rfl
    exact ⟨hfolded, hless, (hcongr hfolded).1.trans hless⟩

/-- Two different strings can be equal to one number. -/
example :
    ((ofString "10").equal (ofNumber (.ofInt 10)) = true ∧
      (ofNumber (.ofInt 10)).equal (ofString "1e1") = true) ∧
    (ofString "10").equal (ofString "1e1") = false := by
  decide +kernel

end TypedValue

end WorkflowExpr
