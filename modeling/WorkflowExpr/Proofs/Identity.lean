import Mathlib.Data.Set.Function
import WorkflowExpr.Builtin
import WorkflowExpr.Context
import WorkflowExpr.Proofs.Induction

/-!
The identities in a value, and the value with its identities renamed. Only the comparison of
two containers looks at identities, and it cannot tell a value from a renamed one as long as
the renaming keeps different identities different.
-/

namespace WorkflowExpr

namespace Value

mutual

def identities : Value → List Identity
  | .array identity items => identity :: identitiesOfItems items
  | .object identity fields => identity :: identitiesOfFields fields
  | _ => []

def identitiesOfItems : List Value → List Identity
  | [] => []
  | item :: items => identities item ++ identitiesOfItems items

def identitiesOfFields : List (String × Value) → List Identity
  | [] => []
  | (_, value) :: fields => identities value ++ identitiesOfFields fields

end

mutual

def rename (ρ : Identity → Identity) : Value → Value
  | .array identity items => .array (ρ identity) (renameItems ρ items)
  | .object identity fields => .object (ρ identity) (renameFields ρ fields)
  | v => v

def renameItems (ρ : Identity → Identity) : List Value → List Value
  | [] => []
  | item :: items => rename ρ item :: renameItems ρ items

def renameFields (ρ : Identity → Identity) : List (String × Value) → List (String × Value)
  | [] => []
  | (name, value) :: fields => (name, rename ρ value) :: renameFields ρ fields

end

def Within (S : Set Identity) (v : Value) : Prop := ∀ i ∈ v.identities, i ∈ S

variable {ρ σ : Identity → Identity} {S : Set Identity}

theorem mem_identitiesOfItems {i : Identity} {items : List Value} :
    i ∈ identitiesOfItems items ↔ ∃ item ∈ items, i ∈ item.identities := by
  induction items with
  | nil => simp [identitiesOfItems]
  | cons item items ih => simp [identitiesOfItems, ih]

theorem mem_identitiesOfFields {i : Identity} {fields : List (String × Value)} :
    i ∈ identitiesOfFields fields ↔ ∃ field ∈ fields, i ∈ field.2.identities := by
  induction fields with
  | nil => simp [identitiesOfFields]
  | cons field fields ih => simp [identitiesOfFields, ih]

theorem renameItems_eq_map (ρ : Identity → Identity) (items : List Value) :
    renameItems ρ items = items.map (rename ρ) := by
  induction items with
  | nil => rfl
  | cons item items ih => rw [renameItems, ih, List.map_cons]

theorem renameFields_eq_map (ρ : Identity → Identity) (fields : List (String × Value)) :
    renameFields ρ fields = fields.map fun field => (field.1, field.2.rename ρ) := by
  induction fields with
  | nil => rfl
  | cons field fields ih => rw [renameFields, ih, List.map_cons]

theorem within_array {identity : Identity} {items : List Value} :
    (Value.array identity items).Within S ↔ identity ∈ S ∧ ∀ item ∈ items, item.Within S := by
  simp only [Within, identities, List.mem_cons, forall_eq_or_imp, mem_identitiesOfItems]
  exact and_congr_right fun _ => ⟨fun h item member i hi => h i ⟨item, member, hi⟩,
    fun h i ⟨item, member, hi⟩ => h item member i hi⟩

theorem within_object {identity : Identity} {fields : List (String × Value)} :
    (Value.object identity fields).Within S ↔
      identity ∈ S ∧ ∀ field ∈ fields, field.2.Within S := by
  simp only [Within, identities, List.mem_cons, forall_eq_or_imp, mem_identitiesOfFields]
  exact and_congr_right fun _ => ⟨fun h field member i hi => h i ⟨field, member, hi⟩,
    fun h i ⟨field, member, hi⟩ => h field member i hi⟩

theorem within_of_isPrimitive {v : Value} (h : v.isPrimitive = true) : v.Within S := by
  cases v with
  | array | object => cases h
  | _ => exact fun _ hi => absurd hi List.not_mem_nil

theorem Within.mono {T : Set Identity} {v : Value} (h : v.Within S) (hsub : S ⊆ T) :
    v.Within T := fun i hi => hsub (h i hi)

/-- Renamings that agree on the identities of a value rename it alike. -/
theorem rename_congr {v : Value} (h : ∀ i ∈ v.identities, ρ i = σ i) :
    v.rename ρ = v.rename σ := by
  induction v with
  | array identity items ih =>
      simp only [rename, renameItems_eq_map]
      congr 1
      · exact h identity (by simp [identities])
      · refine List.map_congr_left fun item member => ih item member fun i hi => h i ?_
        exact List.mem_cons_of_mem _ (mem_identitiesOfItems.mpr ⟨item, member, hi⟩)
  | object identity fields ih =>
      simp only [rename, renameFields_eq_map]
      congr 1
      · exact h identity (by simp [identities])
      · refine List.map_congr_left fun field member => Prod.ext rfl ?_
        refine ih field member fun i hi => h i ?_
        exact List.mem_cons_of_mem _ (mem_identitiesOfFields.mpr ⟨field, member, hi⟩)
  | _ => rfl

theorem rename_rename (ρ σ : Identity → Identity) (v : Value) :
    (v.rename ρ).rename σ = v.rename (σ ∘ ρ) := by
  induction v with
  | array identity items ih =>
      simp only [rename, renameItems_eq_map, List.map_map, Function.comp_apply]
      congr 1
      exact List.map_congr_left fun item member => ih item member
  | object identity fields ih =>
      simp only [rename, renameFields_eq_map, List.map_map, Function.comp_apply]
      congr 1
      exact List.map_congr_left fun field member => Prod.ext rfl (ih field member)
  | _ => rfl

theorem rename_id (v : Value) : v.rename id = v := by
  induction v with
  | array identity items ih =>
      have hitems : items.map (rename id) = items :=
        (List.map_congr_left (g := id) ih).trans (List.map_id items)
      simp only [rename, renameItems_eq_map, hitems, id_eq]
  | object identity fields ih =>
      have hfields : fields.map (fun field => (field.1, field.2.rename id)) = fields := by
        refine (List.map_congr_left (g := id) fun field member => ?_).trans (List.map_id fields)
        rw [ih field member, id_eq]
      simp only [rename, renameFields_eq_map, hfields, id_eq]
  | _ => rfl

/-- A renaming that leaves the identities of a value alone leaves the value alone. -/
theorem rename_eq_self {v : Value} (h : ∀ i ∈ v.identities, ρ i = i) : v.rename ρ = v :=
  (rename_congr h).trans (rename_id v)

theorem mem_identities_rename {i : Identity} {v : Value} :
    i ∈ (v.rename ρ).identities ↔ ∃ j ∈ v.identities, ρ j = i := by
  induction v with
  | array identity items ih =>
      simp only [rename, renameItems_eq_map, identities, List.mem_cons, mem_identitiesOfItems,
        List.mem_map, exists_exists_and_eq_and]
      constructor
      · rintro (rfl | ⟨item, member, hi⟩)
        · exact ⟨identity, .inl rfl, rfl⟩
        · obtain ⟨j, hj, rfl⟩ := (ih item member).mp hi
          exact ⟨j, .inr ⟨item, member, hj⟩, rfl⟩
      · rintro ⟨j, rfl | ⟨item, member, hj⟩, rfl⟩
        · exact .inl rfl
        · exact .inr ⟨item, member, (ih item member).mpr ⟨j, hj, rfl⟩⟩
  | object identity fields ih =>
      simp only [rename, renameFields_eq_map, identities, List.mem_cons,
        mem_identitiesOfFields, List.mem_map, exists_exists_and_eq_and]
      constructor
      · rintro (rfl | ⟨field, member, hi⟩)
        · exact ⟨identity, .inl rfl, rfl⟩
        · obtain ⟨j, hj, rfl⟩ := (ih field member).mp hi
          exact ⟨j, .inr ⟨field, member, hj⟩, rfl⟩
      · rintro ⟨j, rfl | ⟨field, member, hj⟩, rfl⟩
        · exact .inl rfl
        · exact .inr ⟨field, member, (ih field member).mpr ⟨j, hj, rfl⟩⟩
  | _ => simp [rename, identities]

@[simp] theorem classify_rename (ρ : Identity → Identity) (v : Value) :
    (v.rename ρ).classify = v.classify := by
  cases v <;> rfl

@[simp] theorem falsy_rename (ρ : Identity → Identity) (v : Value) :
    (v.rename ρ).falsy = v.falsy := by
  cases v <;> rfl

@[simp] theorem toNumber_rename (ρ : Identity → Identity) (v : Value) :
    (v.rename ρ).toNumber = v.toNumber := by
  cases v <;> rfl

@[simp] theorem toText_ofValue_rename (ρ : Identity → Identity) (v : Value) :
    (TypedValue.ofValue (v.rename ρ)).toText = (TypedValue.ofValue v).toText := by
  cases v <;> rfl

theorem get?_renameFields (ρ : Identity → Identity) (fields : Fields Value) (name : String) :
    Fields.get? (renameFields ρ fields) name = (Fields.get? fields name).map (rename ρ) := by
  induction fields with
  | nil => rfl
  | cons field fields ih =>
      obtain ⟨other, value⟩ := field
      simp only [renameFields, Fields.get?, ih]
      split <;> rfl

/-- The JSON text of a value does not show identities. -/
theorem write_rename (ρ : Identity → Identity) (style : Json.Style) (level : Nat) (v : Value) :
    (v.rename ρ).write style level = v.write style level := by
  induction v generalizing level with
  | array identity items ih =>
      have hitems : writeItems style (level + 1) (renameItems ρ items) =
          writeItems style (level + 1) items := by
        clear identity
        induction items with
        | nil => rfl
        | cons item items ihitems =>
            simp only [renameItems, writeItems]
            rw [ih item List.mem_cons_self,
              ihitems fun other member => ih other (List.mem_cons_of_mem item member)]
      simp only [rename, write, hitems]
  | object identity fields ih =>
      have hfields : writeFields style (level + 1) (renameFields ρ fields) =
          writeFields style (level + 1) fields := by
        clear identity
        induction fields with
        | nil => rfl
        | cons field fields ihfields =>
            simp only [renameFields, writeFields]
            rw [ih field List.mem_cons_self,
              ihfields fun other member => ih other (List.mem_cons_of_mem field member)]
      simp only [rename, write, hfields]
  | _ => rfl

end Value

namespace TypedValue

/-- Equality looks at the two values alone and not at their types. -/
theorem equal_eq_ofValue (left right : TypedValue) :
    left.equal right = (ofValue left.value).equal (ofValue right.value) := by
  obtain ⟨l, _⟩ := left
  obtain ⟨r, _⟩ := right
  cases l <;> cases r <;> rfl

/-- The order looks at the two values alone and not at their types. -/
theorem order?_eq_ofValue (left right : TypedValue) :
    left.order? right = (ofValue left.value).order? (ofValue right.value) := by
  obtain ⟨l, _⟩ := left
  obtain ⟨r, _⟩ := right
  cases l <;> cases r <;> rfl

theorem order?_rename (ρ : Identity → Identity) (l r : Value) :
    (ofValue (l.rename ρ)).order? (ofValue (r.rename ρ)) = (ofValue l).order? (ofValue r) := by
  cases l <;> cases r <;> rfl

/-- Equality survives a renaming that keeps the identities of both sides apart. -/
theorem equal_rename {ρ : Identity → Identity} {S : Set Identity} (hinj : Set.InjOn ρ S)
    {l r : Value} (hl : l.Within S) (hr : r.Within S) :
    (ofValue (l.rename ρ)).equal (ofValue (r.rename ρ)) = (ofValue l).equal (ofValue r) := by
  have same {i j : Identity} (hi : i ∈ S) (hj : j ∈ S) : (ρ i == ρ j) = (i == j) := by
    rw [Bool.eq_iff_iff, beq_iff_eq, beq_iff_eq]
    exact hinj.eq_iff hi hj
  cases l with
  | array i items =>
      cases r with
      | array j others => exact same (Value.within_array.mp hl).1 (Value.within_array.mp hr).1
      | _ => rfl
  | object i fields =>
      cases r with
      | object j others => exact same (Value.within_object.mp hl).1 (Value.within_object.mp hr).1
      | _ => rfl
  | _ => cases r <;> rfl

end TypedValue

namespace Context

/-- The identities of the containers in a context. -/
def held (ctx : Context) : Set Identity :=
  {i | ∃ name v, ctx.get? name = some v ∧ i ∈ v.identities}

/-- Whether no identity from a bound on is in use in a context. -/
def Below (ctx : Context) (bound : Identity) : Prop := ∀ i ∈ ctx.held, i < bound

theorem within_held {ctx : Context} {name : String} {v : Value} (h : ctx.get? name = some v) :
    v.Within ctx.held := fun _ hi => ⟨name, v, h, hi⟩

end Context

end WorkflowExpr
