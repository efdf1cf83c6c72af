import Mathlib.Data.List.Forall2
import WorkflowExpr.Fields

/-!
Looking names up, and maps built from lists of pairs. Building keeps nothing that was not in
the list, lets the last pair of a name stand, does not look at what the names stand for, and
changes nothing where the names already ascend.
-/

namespace WorkflowExpr.Fields

variable {α β : Type}

instance (fields : Fields α) : Decidable (Ascending fields) :=
  inferInstanceAs (Decidable (List.Pairwise _ _))

/-- What a name stands for is in the map. -/
theorem exists_mem_of_get? {fields : Fields α} {name : String} {found : α}
    (h : get? fields name = some found) : ∃ field ∈ fields, field.2 = found := by
  induction fields with
  | nil => cases h
  | cons field fields ih =>
      obtain ⟨other, value⟩ := field
      rw [get?] at h
      split at h
      · cases h
        exact ⟨_, List.mem_cons_self, rfl⟩
      · obtain ⟨later, member, rfl⟩ := ih h
        exact ⟨later, List.mem_cons_of_mem _ member, rfl⟩

theorem mem_insert {name : String} {value : α} {fields : Fields α} {pair : String × α}
    (h : pair ∈ insert name value fields) : pair = (name, value) ∨ pair ∈ fields := by
  induction fields with
  | nil => exact .inl (List.mem_singleton.mp h)
  | cons first rest ih =>
      obtain ⟨other, old⟩ := first
      rw [insert] at h
      split at h
      · exact List.mem_cons.mp h
      · split at h
        · rcases List.mem_cons.mp h with rfl | later
          · exact .inl rfl
          · exact .inr (List.mem_cons_of_mem _ later)
        · rcases List.mem_cons.mp h with rfl | later
          · exact .inr List.mem_cons_self
          · exact (ih later).imp_right (List.mem_cons_of_mem _)

theorem mem_foldl_insert {pairs : List (String × α)} {fields : Fields α} {pair : String × α}
    (h : pair ∈ pairs.foldl (fun fields pair => insert pair.1 pair.2 fields) fields) :
    pair ∈ pairs ∨ pair ∈ fields := by
  induction pairs generalizing fields with
  | nil => exact .inr h
  | cons first rest ih =>
      rcases ih h with later | hinsert
      · exact .inl (List.mem_cons_of_mem first later)
      · rcases mem_insert hinsert with rfl | hfields
        · exact .inl List.mem_cons_self
        · exact .inr hfields

/-- A map has only pairs of the list it was built from. -/
theorem mem_ofList {pairs : List (String × α)} {pair : String × α} (h : pair ∈ ofList pairs) :
    pair ∈ pairs :=
  (mem_foldl_insert h).resolve_right List.not_mem_nil

theorem insert_map (f : α → β) (name : String) (value : α) (fields : Fields α) :
    insert name (f value) (fields.map fun pair => (pair.1, f pair.2)) =
      (insert name value fields).map fun pair => (pair.1, f pair.2) := by
  induction fields with
  | nil => rfl
  | cons first rest ih =>
      simp only [List.map_cons, insert, ih]
      split
      · rfl
      · split <;> rfl

/-- Building a map and changing what the names stand for can trade places. -/
theorem ofList_map (f : α → β) (pairs : List (String × α)) :
    ofList (pairs.map fun pair => (pair.1, f pair.2)) =
      (ofList pairs).map fun pair => (pair.1, f pair.2) := by
  suffices h : ∀ fields : Fields α,
      (pairs.map fun pair => (pair.1, f pair.2)).foldl
        (fun fields pair => insert pair.1 pair.2 fields)
        (fields.map fun pair => (pair.1, f pair.2)) =
      (pairs.foldl (fun fields pair => insert pair.1 pair.2 fields) fields).map
        fun pair => (pair.1, f pair.2) from h []
  induction pairs with
  | nil => exact fun _ => rfl
  | cons first rest ih =>
      intro fields
      rw [List.map_cons, List.foldl_cons, List.foldl_cons, ← ih, ← insert_map]

theorem insert_eq_append {name : String} {fields : Fields α}
    (h : ∀ other ∈ names fields, other < name) (value : α) :
    insert name value fields = fields ++ [(name, value)] := by
  induction fields with
  | nil => rfl
  | cons first rest ih =>
      obtain ⟨other, old⟩ := first
      have hother : other < name := h other List.mem_cons_self
      have hrest := ih fun later hlater => h later (List.mem_cons_of_mem other hlater)
      have hne : name ≠ other := fun heq => String.lt_irrefl other (heq ▸ hother)
      rw [insert, if_neg (String.lt_asymm hother), if_neg hne, hrest, List.cons_append]

theorem foldl_insert_of_ascending {pairs fields : Fields α} (h : Ascending (fields ++ pairs)) :
    pairs.foldl (fun fields pair => insert pair.1 pair.2 fields) fields = fields ++ pairs := by
  induction pairs generalizing fields with
  | nil => exact (List.append_nil fields).symm
  | cons pair rest ih =>
      have hsplit : fields ++ pair :: rest = fields ++ [pair] ++ rest := by simp
      have hbefore : ∀ other ∈ names fields, other < pair.1 := by
        intro other hother
        rw [Ascending, names, List.map_append, List.pairwise_append] at h
        exact h.2.2 other hother pair.1 List.mem_cons_self
      rw [List.foldl_cons, insert_eq_append hbefore, ih (hsplit ▸ h), hsplit]

/-- Pairs whose names ascend are a map already. -/
theorem ofList_eq_self {pairs : Fields α} (h : Ascending pairs) : ofList pairs = pairs :=
  @foldl_insert_of_ascending α pairs [] h

theorem get?_append (first second : Fields α) (name : String) :
    get? (first ++ second) name = (get? first name).or (get? second name) := by
  induction first with
  | nil => rfl
  | cons pair rest ih =>
      obtain ⟨other, value⟩ := pair
      rw [List.cons_append, get?, get?, ih]
      split <;> rfl

theorem get?_foldl_insert (pairs : List (String × α)) (fields : Fields α) (name : String) :
    get? (pairs.foldl (fun fields pair => insert pair.1 pair.2 fields) fields) name =
      (get? pairs.reverse name).or (get? fields name) := by
  induction pairs generalizing fields with
  | nil => rfl
  | cons pair rest ih =>
      rw [List.foldl_cons, ih, get?_insert, List.reverse_cons, get?_append, Option.or_assoc]
      congr 1
      rw [get?, get?]
      split <;> rfl

/-- In a map built from a list the last pair of a name is found. -/
theorem get?_ofList (pairs : List (String × α)) (name : String) :
    get? (ofList pairs) name = get? pairs.reverse name := by
  rw [ofList, get?_foldl_insert]
  exact Option.or_none

/-- Two lists of pairs have the same names one by one, for things that are related. -/
def Pointwise (R : α → β → Prop) : List (String × α) → List (String × β) → Prop :=
  List.Forall₂ fun a b => a.1 = b.1 ∧ R a.2 b.2

namespace Pointwise

variable {R : α → β → Prop} {as : List (String × α)} {bs : List (String × β)}

theorem get? (h : Pointwise R as bs) (name : String) :
    Option.Rel R (Fields.get? as name) (Fields.get? bs name) := by
  induction h with
  | nil => exact .none
  | cons hfirst _ ih =>
      obtain ⟨hname, hvalue⟩ := hfirst
      rw [Fields.get?, Fields.get?, hname]
      split
      · exact .some hvalue
      · exact ih

theorem names_eq (h : Pointwise R as bs) : names as = names bs := by
  induction h with
  | nil => rfl
  | cons hfirst _ ih => exact congrArg₂ List.cons hfirst.1 ih

theorem insert (h : Pointwise R as bs) (name : String) {a : α} {b : β} (hab : R a b) :
    Pointwise R (Fields.insert name a as) (Fields.insert name b bs) := by
  induction h with
  | nil => exact .cons ⟨rfl, hab⟩ .nil
  | cons hfirst hrest ih =>
      obtain ⟨hname, hvalue⟩ := hfirst
      rw [Fields.insert, Fields.insert, hname]
      split
      · exact .cons ⟨rfl, hab⟩ (.cons ⟨rfl, hvalue⟩ hrest)
      · split
        · exact .cons ⟨rfl, hab⟩ hrest
        · exact .cons ⟨rfl, hvalue⟩ ih

theorem ofList (h : Pointwise R as bs) : Pointwise R (Fields.ofList as) (Fields.ofList bs) := by
  suffices hfold : ∀ {fields : Fields α} {others : Fields β}, Pointwise R fields others →
      Pointwise R (as.foldl (fun fields pair => Fields.insert pair.1 pair.2 fields) fields)
        (bs.foldl (fun fields pair => Fields.insert pair.1 pair.2 fields) others) from
    hfold .nil
  induction h with
  | nil => exact fun hfields => hfields
  | cons hfirst _ ih =>
      intro fields others hfields
      rw [List.foldl_cons, List.foldl_cons, hfirst.1]
      exact ih (hfields.insert _ hfirst.2)

end Pointwise

end WorkflowExpr.Fields
