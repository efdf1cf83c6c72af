import WorkflowExpr.Proofs.Fields
import WorkflowExpr.Value.Json

/-!
What a document stands for. Reading a document makes its containers anew, so it stands for one
value for each identity to start from. All of them have the shape of the document: an array has
the values of its items one by one, and an object has those of its members by name.
-/

namespace WorkflowExpr.Value

/-- What is related item by item stays so in any relation that follows for the items. -/
theorem forall₂_imp_of_mem {α β : Type} {R T : α → β → Prop} {as : List α} {bs : List β}
    (h : List.Forall₂ R as bs) (himp : ∀ b ∈ bs, ∀ a, R a b → T a b) : List.Forall₂ T as bs := by
  induction h with
  | nil => exact .nil
  | cons hfirst _ ih =>
      rw [List.forall_mem_cons] at himp
      exact .cons (himp.1 _ hfirst) (ih himp.2)

/-- A value is what a document stands for, with some identities. -/
def StandsFor (v : Value) (json : Json) : Prop := ∃ start, ((ofJson json).run start).1 = v

theorem standsFor_ofItems (items : List Json) (start : Identity) :
    List.Forall₂ StandsFor ((ofItems items).run start).1 items := by
  induction items generalizing start with
  | nil => exact .nil
  | cons item items ih => exact .cons ⟨start, rfl⟩ (ih _)

theorem standsFor_ofMembers (members : List (String × Json)) (start : Identity) :
    Fields.Pointwise StandsFor ((ofMembers members).run start).1 members := by
  induction members generalizing start with
  | nil => exact .nil
  | cons member members ih => exact .cons ⟨rfl, start, rfl⟩ (ih _)

theorem StandsFor.array {v : Value} {items : List Json} (h : v.StandsFor (.array items)) :
    ∃ identity vs, v = .array identity vs ∧ List.Forall₂ StandsFor vs items := by
  obtain ⟨start, rfl⟩ := h
  exact ⟨_, _, rfl, standsFor_ofItems items start⟩

theorem StandsFor.object {v : Value} {members : List (String × Json)}
    (h : v.StandsFor (.object members)) :
    ∃ identity fields, v = .object identity (Fields.ofList fields) ∧
      Fields.Pointwise StandsFor fields members := by
  obtain ⟨start, rfl⟩ := h
  exact ⟨_, _, rfl, standsFor_ofMembers members start⟩

theorem sameItems_of_forall₂ {as bs : List Value}
    (h : List.Forall₂ (fun v w => v.sameContents w = true) as bs) : sameItems as bs = true := by
  induction h with
  | nil => rfl
  | cons hfirst _ ih => rw [sameItems, hfirst, ih, Bool.and_self]

theorem sameFields_of_pointwise {as bs : List (String × Value)}
    (h : Fields.Pointwise (fun v w => v.sameContents w = true) as bs) :
    sameFields as bs = true := by
  induction h with
  | nil => rfl
  | cons hfirst _ ih =>
      obtain ⟨hname, hvalue⟩ := hfirst
      simp only [sameFields, hname, hvalue, ih, beq_self_eq_true, Bool.and_self]

end WorkflowExpr.Value
