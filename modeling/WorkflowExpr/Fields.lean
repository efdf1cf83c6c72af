/-!
Finite maps from names, kept as lists of pairs in ascending order of the names. Objects,
contexts, function registries and object types all use them. The lemmas give the map's view
of `insert` and say that the order survives it.
-/

namespace WorkflowExpr

/-- Pairs of a name and what it stands for. -/
abbrev Fields (α : Type) := List (String × α)

namespace Fields

variable {α : Type}

def names (fields : Fields α) : List String := fields.map Prod.fst

/-- Whether the names ascend, which also says that none occurs twice. -/
def Ascending (fields : Fields α) : Prop := (names fields).Pairwise (· < ·)

/-- Binds a name, replacing what it stood for. -/
def insert (name : String) (value : α) : Fields α → Fields α
  | [] => [(name, value)]
  | (other, old) :: rest =>
      if name < other then (name, value) :: (other, old) :: rest
      else if name = other then (name, value) :: rest
      else (other, old) :: insert name value rest

def get? : Fields α → String → Option α
  | [], _ => none
  | (other, value) :: rest, name => if name = other then some value else get? rest name

/-- The map of a list of pairs. A later pair replaces an earlier one of the same name. -/
def ofList (pairs : List (String × α)) : Fields α :=
  pairs.foldl (fun fields pair => insert pair.1 pair.2 fields) []

/-- The last binding of a name is the one found. -/
theorem get?_insert (fields : Fields α) (name other : String) (value : α) :
    get? (insert name value fields) other =
      if other = name then some value else get? fields other := by
  induction fields with
  | nil => simp only [insert, get?]
  | cons pair rest ih =>
      obtain ⟨first, old⟩ := pair
      rw [insert]
      split
      · simp only [get?]
      · split
        · rename_i hfirst
          subst hfirst
          simp only [get?]
          split <;> rfl
        · rename_i hne
          simp only [get?, ih]
          by_cases h : other = first
          · subst h
            simp [Ne.symm hne]
          · simp [h]

/-- The names after a binding are the names before it and the new one. -/
theorem mem_names_insert (fields : Fields α) (name other : String) (value : α) :
    other ∈ names (insert name value fields) ↔ other = name ∨ other ∈ names fields := by
  induction fields with
  | nil => simp [insert, names]
  | cons pair rest ih =>
      obtain ⟨first, old⟩ := pair
      rw [insert]
      simp only [names, List.map_cons, List.mem_cons] at ih ⊢
      split
      · simp
      · split
        · rename_i hfirst
          subst hfirst
          simp
        · simp only [List.map_cons, List.mem_cons, ih]
          exact or_left_comm

theorem ascending_insert {fields : Fields α} (h : Ascending fields) (name : String) (value : α) :
    Ascending (insert name value fields) := by
  induction fields with
  | nil => simp [insert, Ascending, names]
  | cons pair rest ih =>
      obtain ⟨first, old⟩ := pair
      have hcons := List.pairwise_cons.mp h
      rw [insert]
      split
      · rename_i hlt
        refine List.pairwise_cons.mpr ⟨?_, h⟩
        intro other hmem
        rcases List.mem_cons.mp hmem with heq | hin
        · exact heq ▸ hlt
        · exact String.lt_trans hlt (hcons.1 other hin)
      · split
        · rename_i hfirst
          subst hfirst
          exact h
        · rename_i hnlt hne
          have hlt : first < name := String.not_le.mp fun hle =>
            hne (String.le_antisymm hle (String.not_lt.mp hnlt))
          refine List.pairwise_cons.mpr ⟨?_, ih hcons.2⟩
          intro other hmem
          rcases (mem_names_insert rest name other value).mp hmem with heq | hin
          · exact heq ▸ hlt
          · exact hcons.1 other hin

theorem ascending_ofList (pairs : List (String × α)) : Ascending (ofList pairs) := by
  suffices h : ∀ fields : Fields α, Ascending fields →
      Ascending (pairs.foldl (fun fields pair => insert pair.1 pair.2 fields) fields) from
    h [] List.Pairwise.nil
  induction pairs with
  | nil => exact fun _ h => h
  | cons pair rest ih => exact fun fields h => ih _ (ascending_insert h _ _)

end Fields

end WorkflowExpr
