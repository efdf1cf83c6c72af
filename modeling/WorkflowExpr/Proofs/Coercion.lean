import WorkflowExpr.Proofs.Comparison

/-!
What coercion makes of two results. Told as rules, it begins anew whenever null or a truth value
beside another kind has become a number, and a string may have to be read as a number only
then. The rules always come to an end, and to one only. What they end in are sides that coercion
leaves alone: two values of one kind, or a container beside a value that is settled.
-/

namespace WorkflowExpr

namespace Value

/-- Null and the truth values, which become numbers beside another kind. -/
def Unsettled (v : Value) : Prop := v.tag = .null ∨ v.tag = .bool

/-- Two values that coercion leaves alone. They are of one kind, or one of them is a container
and neither of them is unsettled. -/
def Reconciled (v w : Value) : Prop :=
  v.tag = w.tag ∨ (v.isPrimitive = false ∨ w.isPrimitive = false) ∧ ¬v.Unsettled ∧ ¬w.Unsettled

instance (v : Value) : Decidable v.Unsettled := inferInstanceAs (Decidable (_ ∨ _))

variable {v w : Value}

theorem Reconciled.symm (h : v.Reconciled w) : w.Reconciled v := by
  rcases h with hsame | ⟨hcontainer, hv, hw⟩
  · exact .inl hsame.symm
  · exact .inr ⟨hcontainer.symm, hw, hv⟩

/-- Coercion does not leave a number beside a string alone. -/
theorem Reconciled.not_number_string (h : v.Reconciled w) :
    ¬(v.tag = .number ∧ w.tag = .string) := by
  rintro ⟨hnumber, hstring⟩
  rw [Reconciled, isPrimitive, isPrimitive, hnumber, hstring] at h
  rcases h with hsame | ⟨hcontainer | hcontainer, -⟩
  · cases hsame
  · cases hcontainer
  · cases hcontainer

end Value

namespace TypedValue

/-- Coercion by rules, the left side first. A rule that makes a number of an unsettled side lets
coercion begin anew. -/
inductive Coerces : TypedValue → TypedValue → TypedValue × TypedValue → Prop where
  | same {l r : TypedValue} (h : l.value.tag = r.value.tag) : Coerces l r (l, r)
  | readRight {l r : TypedValue} (hl : l.value.tag = .number) (hr : r.value.tag = .string) :
      Coerces l r (l, r.numeric)
  | readLeft {l r : TypedValue} (hl : l.value.tag = .string) (hr : r.value.tag = .number) :
      Coerces l r (l.numeric, r)
  | settleLeft {l r : TypedValue} {sides : TypedValue × TypedValue}
      (hdiffer : l.value.tag ≠ r.value.tag) (hl : l.value.Unsettled)
      (h : Coerces l.numeric r sides) : Coerces l r sides
  | settleRight {l r : TypedValue} {sides : TypedValue × TypedValue}
      (hdiffer : l.value.tag ≠ r.value.tag) (hl : ¬l.value.Unsettled) (hr : r.value.Unsettled)
      (h : Coerces l r.numeric sides) : Coerces l r sides
  | apart {l r : TypedValue} (hdiffer : l.value.tag ≠ r.value.tag)
      (hright : ¬(l.value.tag = .number ∧ r.value.tag = .string))
      (hleft : ¬(r.value.tag = .number ∧ l.value.tag = .string))
      (hl : ¬l.value.Unsettled) (hr : ¬r.value.Unsettled) : Coerces l r (l, r)

variable {l r : TypedValue} {sides : TypedValue × TypedValue}

theorem not_unsettled_numeric (l : TypedValue) : ¬l.numeric.value.Unsettled := by
  rintro (h | h) <;> cases h

theorem settle_of_unsettled (h : l.value.Unsettled) : l.settle = l.numeric := by
  obtain ⟨v, ty⟩ := l
  rcases h with h | h <;> cases v <;> cases h <;> rfl

theorem settle_of_not_unsettled (h : ¬l.value.Unsettled) : l.settle = l := by
  obtain ⟨v, ty⟩ := l
  cases v with
  | null => exact absurd (.inl rfl) h
  | bool b => exact absurd (.inr rfl) h
  | _ => rfl

theorem not_unsettled_settle (l : TypedValue) : ¬l.settle.value.Unsettled := by
  by_cases h : l.value.Unsettled
  · rw [settle_of_unsettled h]
    exact not_unsettled_numeric l
  · rwa [settle_of_not_unsettled h]

/-- Where both sides are settled, a string beside a number is read and nothing else happens. -/
theorem meet_cases (hl : ¬l.value.Unsettled) (hr : ¬r.value.Unsettled) :
    l.value.Reconciled r.value ∧ meet l r = (l, r) ∨
      l.value.tag = .number ∧ r.value.tag = .string ∧ meet l r = (l, r.numeric) ∨
      r.value.tag = .number ∧ l.value.tag = .string ∧ meet l r = (l.numeric, r) := by
  obtain ⟨v, _⟩ := l
  obtain ⟨w, _⟩ := r
  cases v with
  | null => exact absurd (.inl rfl) hl
  | bool b => exact absurd (.inr rfl) hl
  | number n =>
      cases w with
      | null => exact absurd (.inl rfl) hr
      | bool b => exact absurd (.inr rfl) hr
      | number n => exact .inl ⟨.inl rfl, rfl⟩
      | string s => exact .inr (.inl ⟨rfl, rfl, rfl⟩)
      | _ => exact .inl ⟨.inr ⟨.inr rfl, hl, hr⟩, rfl⟩
  | string s =>
      cases w with
      | null => exact absurd (.inl rfl) hr
      | bool b => exact absurd (.inr rfl) hr
      | number n => exact .inr (.inr ⟨rfl, rfl, rfl⟩)
      | string s => exact .inl ⟨.inl rfl, rfl⟩
      | _ => exact .inl ⟨.inr ⟨.inr rfl, hl, hr⟩, rfl⟩
  | _ => exact .inl ⟨.inr ⟨.inl rfl, hl, hr⟩, rfl⟩

theorem meet_of_reconciled (hl : ¬l.value.Unsettled) (hr : ¬r.value.Unsettled)
    (h : l.value.Reconciled r.value) : meet l r = (l, r) := by
  rcases meet_cases hl hr with ⟨-, hmeet⟩ | ⟨hnumber, hstring, -⟩ | ⟨hnumber, hstring, -⟩
  · exact hmeet
  · exact absurd ⟨hnumber, hstring⟩ h.not_number_string
  · exact absurd ⟨hnumber, hstring⟩ h.symm.not_number_string

theorem coerce_of_tag_eq (h : l.value.tag = r.value.tag) : coerce l r = (l, r) := if_pos h

theorem coerce_of_tag_ne (h : l.value.tag ≠ r.value.tag) :
    coerce l r = meet l.settle r.settle := if_neg h

/-- Sides that are settled only have to meet, whether they are of one kind or not. -/
theorem coerce_of_settled (hl : ¬l.value.Unsettled) (hr : ¬r.value.Unsettled) :
    coerce l r = meet l r := by
  by_cases hsame : l.value.tag = r.value.tag
  · rw [coerce_of_tag_eq hsame, meet_of_reconciled hl hr (.inl hsame)]
  · rw [coerce_of_tag_ne hsame, settle_of_not_unsettled hl, settle_of_not_unsettled hr]

/-- Sides of different kinds can be settled before they are coerced. -/
theorem coerce_settle (h : l.value.tag ≠ r.value.tag) :
    coerce l.settle r.settle = coerce l r := by
  rw [coerce_of_settled (not_unsettled_settle l) (not_unsettled_settle r), coerce_of_tag_ne h]

theorem coerce_numeric_right (hdiffer : l.value.tag ≠ r.value.tag) (hl : ¬l.value.Unsettled)
    (hr : r.value.Unsettled) : coerce l r.numeric = coerce l r := by
  rw [← coerce_settle hdiffer, settle_of_not_unsettled hl, settle_of_unsettled hr]

/-- Beginning anew with one side a number changes nothing. -/
theorem coerce_numeric_left (hdiffer : l.value.tag ≠ r.value.tag) (hl : l.value.Unsettled) :
    coerce l.numeric r = coerce l r := by
  by_cases hr : r.value.Unsettled
  -- null beside a truth value: the rules settle one side after the other, `coerce` both at once
  · have hnumber : l.numeric.value.tag ≠ r.value.tag := by
      rintro h
      rcases hr with hr | hr <;> rw [hr] at h <;> cases h
    rw [← coerce_settle hdiffer, settle_of_unsettled hl, settle_of_unsettled hr,
      coerce_numeric_right hnumber (not_unsettled_numeric l) hr]
  · rw [← coerce_settle hdiffer, settle_of_unsettled hl, settle_of_not_unsettled hr]

theorem coerce_of_reconciled (h : l.value.Reconciled r.value) : coerce l r = (l, r) := by
  rcases h with hsame | ⟨hcontainer, hl, hr⟩
  · exact coerce_of_tag_eq hsame
  · rw [coerce_of_settled hl hr, meet_of_reconciled hl hr (.inr ⟨hcontainer, hl, hr⟩)]

theorem coerce_number_string (hl : l.value.tag = .number) (hr : r.value.tag = .string) :
    coerce l r = (l, r.numeric) := by
  obtain ⟨v, _⟩ := l
  obtain ⟨w, _⟩ := r
  cases v <;> cases hl
  cases w <;> cases hr
  rfl

theorem coerce_string_number (hl : l.value.tag = .string) (hr : r.value.tag = .number) :
    coerce l r = (l.numeric, r) := by
  rw [← coerce_swap, coerce_number_string hr hl]
  rfl

/-- The sides that come out are reconciled. -/
theorem reconciled_coerce (l r : TypedValue) :
    (coerce l r).1.value.Reconciled (coerce l r).2.value := by
  by_cases hsame : l.value.tag = r.value.tag
  · rw [coerce_of_tag_eq hsame]
    exact .inl hsame
  · rw [coerce_of_tag_ne hsame]
    rcases meet_cases (not_unsettled_settle l) (not_unsettled_settle r) with
      ⟨hreconciled, hmeet⟩ | ⟨hnumber, -, hmeet⟩ | ⟨hnumber, -, hmeet⟩
    · rwa [hmeet]
    · rw [hmeet]
      exact .inl hnumber
    · rw [hmeet]
      exact .inl hnumber.symm

/-- The left side stays as it is, or it is no container and becomes a number. -/
theorem coerce_fst_cases (l r : TypedValue) :
    (coerce l r).1 = l ∨ l.value.isPrimitive = true ∧ (coerce l r).1 = l.numeric := by
  obtain ⟨v, _⟩ := l
  obtain ⟨w, _⟩ := r
  cases v with
  | null | bool | string => cases w <;> first | exact .inl rfl | exact .inr ⟨rfl, rfl⟩
  | number | array | object => cases w <;> exact .inl rfl

theorem coerce_snd (l r : TypedValue) : (coerce l r).2 = (coerce r l).1 := by
  rw [← coerce_swap]
  rfl

theorem coerce_snd_cases (l r : TypedValue) :
    (coerce l r).2 = r ∨ r.value.isPrimitive = true ∧ (coerce l r).2 = r.numeric := by
  rw [coerce_snd]
  exact coerce_fst_cases r l

/-- What the rules end in is what coercion gives. -/
theorem Coerces.eq_coerce (h : Coerces l r sides) : sides = coerce l r := by
  induction h with
  | same h => exact (coerce_of_tag_eq h).symm
  | readRight hl hr => exact (coerce_number_string hl hr).symm
  | readLeft hl hr => exact (coerce_string_number hl hr).symm
  | settleLeft hdiffer hl _ ih => rw [ih, coerce_numeric_left hdiffer hl]
  | settleRight hdiffer hl hr _ ih => rw [ih, coerce_numeric_right hdiffer hl hr]
  | apart _ hright hleft hl hr =>
      rcases meet_cases hl hr with ⟨-, hmeet⟩ | ⟨hnumber, hstring, -⟩ | ⟨hnumber, hstring, -⟩
      · rw [coerce_of_settled hl hr, hmeet]
      · exact absurd ⟨hnumber, hstring⟩ hright
      · exact absurd ⟨hnumber, hstring⟩ hleft

theorem coerces_of_settled (hl : ¬l.value.Unsettled) (hr : ¬r.value.Unsettled) :
    Coerces l r (coerce l r) := by
  rw [coerce_of_settled hl hr]
  rcases meet_cases hl hr with
    ⟨hreconciled, hmeet⟩ | ⟨hnumber, hstring, hmeet⟩ | ⟨hnumber, hstring, hmeet⟩
  · rw [hmeet]
    by_cases hsame : l.value.tag = r.value.tag
    · exact .same hsame
    · exact .apart hsame hreconciled.not_number_string hreconciled.symm.not_number_string hl hr
  · rw [hmeet]
    exact .readRight hnumber hstring
  · rw [hmeet]
    exact .readLeft hstring hnumber

theorem coerces_of_left_settled (hl : ¬l.value.Unsettled) : Coerces l r (coerce l r) := by
  by_cases hr : r.value.Unsettled
  · by_cases hsame : l.value.tag = r.value.tag
    · rw [coerce_of_tag_eq hsame]
      exact .same hsame
    · rw [← coerce_numeric_right hsame hl hr]
      exact .settleRight hsame hl hr (coerces_of_settled hl (not_unsettled_numeric r))
  · exact coerces_of_settled hl hr

/-- The rules come to an end for any two results. They begin anew at most twice, once for each
side. -/
theorem coerces_coerce (l r : TypedValue) : Coerces l r (coerce l r) := by
  by_cases hl : l.value.Unsettled
  · by_cases hsame : l.value.tag = r.value.tag
    · rw [coerce_of_tag_eq hsame]
      exact .same hsame
    · rw [← coerce_numeric_left hsame hl]
      exact .settleLeft hsame hl (coerces_of_left_settled (not_unsettled_numeric l))
  · exact coerces_of_left_settled hl

theorem consistent_numeric (l : TypedValue) : l.numeric.Consistent := consistent_ofValue _

/-- Coercion brings two results into a normal form. The rules end in its sides and in nothing
else. The sides are of one kind, or a container and something settled. A side that has changed is
no container, and it is now the number that its value counts as, with the type of numbers. Any
other side is the result itself with its identity and its type. Coercing the sides again
changes nothing, exchanging the results exchanges the sides, and honest types stay honest. -/
theorem coerce_normalizes {l r : TypedValue} (hl : l.Consistent) (hr : r.Consistent) :
    (∀ sides, Coerces l r sides ↔ sides = coerce l r) ∧
    (coerce l r).1.value.Reconciled (coerce l r).2.value ∧
    ((coerce l r).1 = l ∨
      l.value.isPrimitive = true ∧ (coerce l r).1 = ofNumber l.value.toNumber) ∧
    ((coerce l r).2 = r ∨
      r.value.isPrimitive = true ∧ (coerce l r).2 = ofNumber r.value.toNumber) ∧
    coerce (coerce l r).1 (coerce l r).2 = coerce l r ∧
    coerce r l = (coerce l r).swap ∧
    (coerce l r).1.Consistent ∧ (coerce l r).2.Consistent := by
  have hleft := coerce_fst_cases l r
  have hright := coerce_snd_cases l r
  refine ⟨fun sides => ⟨Coerces.eq_coerce, ?_⟩, reconciled_coerce l r, hleft, hright,
    coerce_of_reconciled (reconciled_coerce l r), (coerce_swap l r).symm, ?_, ?_⟩
  · rintro rfl
    exact coerces_coerce l r
  · rcases hleft with heq | ⟨-, heq⟩
    · rwa [heq]
    · rw [heq]
      exact consistent_numeric l
  · rcases hright with heq | ⟨-, heq⟩
    · rwa [heq]
    · rw [heq]
      exact consistent_numeric r

/-- Null of unknown type beside a string becomes zero, and only then the string is read. -/
theorem coerce_normalizes_null :
    unknown.Consistent ∧ (ofString "a").Consistent ∧
    coerce unknown (ofString "a") = (ofNumber .zero, ofNumber .nan) ∧
    Coerces unknown (ofString "a") (ofNumber .zero, ofNumber .nan) ∧
    coerce (ofNumber .zero) (ofNumber .nan) = (ofNumber .zero, ofNumber .nan) ∧
    coerce (ofString "a") unknown = (ofNumber .nan, ofNumber .zero) := by
  have hread : Numeral.read "a" = .nan := by decide +kernel
  have heq : coerce unknown (ofString "a") = (ofNumber .zero, ofNumber .nan) := by
    rw [← hread]
    rfl
  have hstring : (ofString "a").Consistent := consistent_ofValue _
  obtain ⟨hrules, -, -, -, hagain, hswap, -⟩ := coerce_normalizes consistent_unknown hstring
  rw [heq] at hrules hagain hswap
  exact ⟨consistent_unknown, hstring, heq, (hrules _).mpr rfl, hagain, hswap⟩

end TypedValue

end WorkflowExpr
