import WorkflowExpr.Proofs.Calls

/-!
Joining arrays. The text of an array is the texts of its elements with the separator between any
two of them, also where a text is empty. So joining turns one array after another into one text
after another, and a separator of one character that stands in none of the elements shows where
each of them begins.
-/

namespace WorkflowExpr.Builtin

/-- The text of an element. Only its kind is known of an array or an object. -/
def elementText : Value → String
  | .null => ""
  | .bool b => if b then "true" else "false"
  | .number n => Numeral.write n
  | .string s => s
  | .array _ _ => "array<any>"
  | .object _ _ => "object"

theorem toText_ofValue (v : Value) : (TypedValue.ofValue v).toText = elementText v := by
  cases v <;> rfl

/-- Whether joining an array of these elements gives a text, whatever the array's identity and
type. The first of the other arguments is the separator. -/
def Joins (items : List Value) (rest : List TypedValue) (text : String) : Prop :=
  ∀ identity ty next, registry.call "join" (⟨.array identity items, ty⟩ :: rest) next =
    .ok (.ofString text, next)

theorem joins_iff {items : List Value} {rest : List TypedValue} {text : String} :
    Joins items rest text ↔ text = (separator rest).intercalate (items.map elementText) := by
  have hcall : ∀ identity ty, registry.call "join" (⟨.array identity items, ty⟩ :: rest) =
      return .ofString ((separator rest).intercalate (items.map elementText)) := by
    intro identity ty
    rw [call_join, joined]
    simp only [toText_ofValue]
  constructor
  · intro h
    have hjoin := h 0 .any 0
    rw [hcall] at hjoin
    cases hjoin
    rfl
  · rintro rfl identity ty next
    rw [hcall]
    rfl

theorem joins_intercalate (items : List Value) (rest : List TypedValue) :
    Joins items rest ((separator rest).intercalate (items.map elementText)) :=
  joins_iff.mpr rfl

/-- Joining two arrays that are not empty gives the text of the first, the separator and the text
of the second. -/
theorem joins_append {xs ys : List Value} {rest : List TypedValue} {left right : String}
    (hxs : xs ≠ []) (hys : ys ≠ []) (hleft : Joins xs rest left) (hright : Joins ys rest right) :
    Joins (xs ++ ys) rest (left ++ separator rest ++ right) := by
  rw [joins_iff] at hleft hright ⊢
  have hleftTexts : xs.map elementText ≠ [] := fun h => hxs (List.map_eq_nil_iff.mp h)
  have hrightTexts : ys.map elementText ≠ [] := fun h => hys (List.map_eq_nil_iff.mp h)
  rw [hleft, hright, List.map_append,
    String.intercalate_append_of_ne_nil hleftTexts hrightTexts]

/-- Splitting at a separator that stands in no element gives the elements back. -/
theorem split_of_joins {items : List Value} {rest : List TypedValue} {text : String} {c : Char}
    (hitems : items ≠ []) (hseparator : separator rest = String.singleton c)
    (hfree : ∀ item ∈ items, c ∉ (elementText item).toList) (h : Joins items rest text) :
    (text.split c).toList.map (·.copy) = items.map elementText := by
  have htexts : items.map elementText ≠ [] := fun h => hitems (List.map_eq_nil_iff.mp h)
  have hfreeTexts : ∀ part ∈ items.map elementText, c ∉ part.toList := by
    intro part member
    obtain ⟨item, hitem, rfl⟩ := List.mem_map.mp member
    exact hfree item hitem
  rw [joins_iff.mp h, hseparator, String.toList_split_intercalate hfreeTexts, if_neg htexts]

/-- Joining goes from arrays to texts. Every array has a text, two arrays in a row have their texts
in a row with the separator in between, and from a separator of one character that stands in no
element the elements can be told apart again. -/
theorem join_homomorphism :
    (∀ (xs ys : List Value) (rest : List TypedValue), xs ≠ [] → ys ≠ [] →
      ∃ left right, Joins xs rest left ∧ Joins ys rest right ∧
        Joins (xs ++ ys) rest (left ++ separator rest ++ right)) ∧
    (∀ (items : List Value) (rest : List TypedValue) (c : Char), items ≠ [] →
      separator rest = String.singleton c →
      (∀ item ∈ items, c ∉ (elementText item).toList) →
        ∃ text, Joins items rest text ∧
          (text.split c).toList.map (·.copy) = items.map elementText) := by
  constructor
  · intro xs ys rest hxs hys
    exact ⟨_, _, joins_intercalate xs rest, joins_intercalate ys rest,
      joins_append hxs hys (joins_intercalate xs rest) (joins_intercalate ys rest)⟩
  · intro items rest c hitems hseparator hfree
    have hjoins := joins_intercalate items rest
    exact ⟨_, hjoins, split_of_joins hitems hseparator hfree hjoins⟩

/-- Texts that are empty are not lost, and a comma in an element is not taken for a separator. -/
theorem join_homomorphism_semicolon :
    ([.null, .string "a,b"] : List Value) ≠ [] ∧ ([.array 1 [], .null] : List Value) ≠ [] ∧
    (∃ left right, Joins [.null, .string "a,b"] [.ofString ";"] left ∧
      Joins [.array 1 [], .null] [.ofString ";"] right ∧
      Joins [.null, .string "a,b", .array 1 [], .null] [.ofString ";"]
        (left ++ ";" ++ right)) ∧
    separator [.ofString ";"] = String.singleton ';' ∧
    (∀ item ∈ ([.null, .string "a,b", .array 1 [], .null] : List Value),
      ';' ∉ (elementText item).toList) ∧
    ∃ text, Joins [.null, .string "a,b", .array 1 [], .null] [.ofString ";"] text ∧
      (text.split ';').toList.map (·.copy) = ["", "a,b", "array<any>", ""] := by
  have hfree : ∀ item ∈ ([.null, .string "a,b", .array 1 [], .null] : List Value),
      ';' ∉ (elementText item).toList := by
    simp [elementText]
  obtain ⟨happend, hsplit⟩ := join_homomorphism
  exact ⟨List.cons_ne_nil _ _, List.cons_ne_nil _ _,
    happend [.null, .string "a,b"] [.array 1 [], .null] _ (List.cons_ne_nil _ _)
      (List.cons_ne_nil _ _),
    rfl, hfree, hsplit _ [.ofString ";"] ';' (List.cons_ne_nil _ _) rfl hfree⟩

end WorkflowExpr.Builtin
