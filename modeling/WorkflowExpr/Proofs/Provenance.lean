import Mathlib.Order.Interval.Set.Basic
import WorkflowExpr.Proofs.Fields
import WorkflowExpr.Proofs.Identity
import WorkflowExpr.Proofs.Invariant

/-!
Where the identities in a result come from. Each is that of a container in the context, or it
was taken during the evaluation, which takes identities one after the other and gives none
back.
-/

namespace WorkflowExpr

open Evaluation

variable {S : Set Identity} {next mid last : Identity}

theorem Value.Within.later {v : Value} {first final : Identity}
    (h : v.Within (S ∪ Set.Ico next last)) (hfirst : first ≤ next) (hfinal : last ≤ final) :
    v.Within (S ∪ Set.Ico first final) :=
  h.mono (Set.union_subset_union_right S (Set.Ico_subset_Ico hfirst hfinal))

/-- The containers made from a document have the identities taken for them. -/
theorem Value.ofJson_within (S : Set Identity) {json : Json} {v : Value}
    (h : ofFresh (ofJson json) next = .ok (v, last)) :
    next ≤ last ∧ v.Within (S ∪ Set.Ico next last) := by
  induction json generalizing next last v with
  | null | bool | int | float | string =>
      cases h
      exact ⟨Nat.le_refl _, within_of_isPrimitive rfl⟩
  | array items ih =>
      have hitems : ∀ {next last : Identity} {vs : List Value},
          ofFresh (ofItems items) next = .ok (vs, last) →
            next ≤ last ∧ ∀ v ∈ vs, v.Within (S ∪ Set.Ico next last) := by
        clear h
        induction items with
        | nil =>
            intro next last vs h
            cases h
            exact ⟨Nat.le_refl _, fun _ hv => absurd hv List.not_mem_nil⟩
        | cons item items ihitems =>
            intro next last vs h
            simp only [ofItems, ofFresh_bind, ofFresh_pure, bind_eq_ok] at h
            obtain ⟨first, mid, hfirst, rest, final, hrest, h⟩ := h
            cases h
            rw [List.forall_mem_cons] at ih
            have hhead := ih.1 hfirst
            have htail := ihitems ih.2 hrest
            refine ⟨Nat.le_trans hhead.1 htail.1, List.forall_mem_cons.mpr ⟨?_, ?_⟩⟩
            · exact hhead.2.later (Nat.le_refl next) htail.1
            · exact fun v hv => (htail.2 v hv).later hhead.1 (Nat.le_refl last)
      simp only [ofJson, ofFresh_bind, bind_eq_ok] at h
      obtain ⟨vs, mid, hvs, h⟩ := h
      cases h
      have hparts := hitems hvs
      refine ⟨Nat.le_succ_of_le hparts.1, within_array.mpr ⟨?_, ?_⟩⟩
      · exact Set.mem_union_right S ⟨hparts.1, Nat.lt_succ_self mid⟩
      · exact fun v hv => (hparts.2 v hv).later (Nat.le_refl next) (Nat.le_succ mid)
  | object members ih =>
      have hmembers : ∀ {next last : Identity} {fs : List (String × Value)},
          ofFresh (ofMembers members) next = .ok (fs, last) →
            next ≤ last ∧ ∀ f ∈ fs, f.2.Within (S ∪ Set.Ico next last) := by
        clear h
        induction members with
        | nil =>
            intro next last fs h
            cases h
            exact ⟨Nat.le_refl _, fun _ hf => absurd hf List.not_mem_nil⟩
        | cons member members ihmembers =>
            intro next last fs h
            simp only [ofMembers, ofFresh_bind, ofFresh_pure, bind_eq_ok] at h
            obtain ⟨first, mid, hfirst, rest, final, hrest, h⟩ := h
            cases h
            rw [List.forall_mem_cons] at ih
            have hhead := ih.1 hfirst
            have htail := ihmembers ih.2 hrest
            refine ⟨Nat.le_trans hhead.1 htail.1, List.forall_mem_cons.mpr ⟨?_, ?_⟩⟩
            · exact hhead.2.later (Nat.le_refl next) htail.1
            · exact fun f hf => (htail.2 f hf).later hhead.1 (Nat.le_refl last)
      simp only [ofJson, ofFresh_bind, bind_eq_ok] at h
      obtain ⟨fs, mid, hfs, h⟩ := h
      cases h
      have hparts := hmembers hfs
      refine ⟨Nat.le_succ_of_le hparts.1, within_object.mpr ⟨?_, ?_⟩⟩
      · exact Set.mem_union_right S ⟨hparts.1, Nat.lt_succ_self mid⟩
      · exact fun f hf =>
          (hparts.2 f (Fields.mem_ofList hf)).later (Nat.le_refl next) (Nat.le_succ mid)

/-- Being of the context or taken by the run is kept by evaluation. -/
theorem Context.within_invariant (ctx : Context) (start : Identity) :
    ctx.Invariant start fun n v => v.Within (ctx.held ∪ Set.Ico start n) where
  later hle h := h.later (Nat.le_refl start) hle
  primitive hv := Value.within_of_isPrimitive hv
  item h member := (Value.within_array.mp h).2 _ member
  field h member := (Value.within_object.mp h).2 _ member
  bound hget := (Context.within_held hget).mono Set.subset_union_left
  made hstart hv :=
    have ⟨hle, hwithin⟩ := Value.ofJson_within ctx.held hv
    ⟨hle, hwithin.later hstart (Nat.le_refl _)⟩

namespace Expr

variable {ctx : Context} {e : Expr} {args : List Expr} {r : TypedValue}
  {results : List TypedValue}

/-- A result has identities of the context and identities taken by the run. -/
theorem eval_within (h : e.eval Builtin.registry ctx next = .ok (r, last)) :
    next ≤ last ∧ r.value.Within (ctx.held ∪ Set.Ico next last) :=
  (ctx.within_invariant next).eval (Nat.le_refl next) h

theorem evalArgs_within (h : evalArgs Builtin.registry ctx args next = .ok (results, last)) :
    next ≤ last ∧ ∀ r ∈ results, r.value.Within (ctx.held ∪ Set.Ico next last) :=
  (ctx.within_invariant next).evalArgs (Nat.le_refl next) h

end Expr

end WorkflowExpr
