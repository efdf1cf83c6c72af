import WorkflowExpr.Proofs.Calls

/-!
The two ways of ignoring case. Equality of strings folds every character on its own. The
functions that search in a text and the registry lower-case a text as a whole, and there a
capital sigma turns into one of two small letters, by what stands around it. On texts without
a capital sigma the two agree: what is equal to the searched text is found, wherever it
stands. With a capital sigma they part, and a text can fail to start with its own beginning.
-/

namespace WorkflowExpr

namespace Text

theorem compareLex_codes_eq_iff (a b : List Char) :
    List.compareLex (fun x y => compare x.toNat y.toNat) a b = .eq ↔ a = b := by
  induction a generalizing b with
  | nil => cases b <;> simp [List.compareLex]
  | cons x xs ih =>
      cases b with
      | nil => simp [List.compareLex]
      | cons y ys =>
          rw [List.compareLex_cons_cons, Ordering.then_eq_eq, Nat.compare_eq_eq, ih,
            Char.toNat_inj, List.cons.injEq]

/-- Two texts are equal but for case exactly when their characters, each folded on its own,
are the same. -/
theorem eqIgnoringCase_iff (a b : String) :
    eqIgnoringCase a b = true ↔ foldCase a.toList = foldCase b.toList := by
  rw [eqIgnoringCase, beq_iff_eq, compareIgnoringCase]
  exact compareLex_codes_eq_iff _ _

theorem eqIgnoringCase_refl (a : String) : eqIgnoringCase a a = true :=
  (eqIgnoringCase_iff a a).mpr rfl

/-- What stands before a part of a text has a form of its own, and the part is lower-cased as
what follows it. -/
theorem exists_lowercaseAfter_append (before u rest : List Char) :
    ∃ head, lowercaseAfter before (u ++ rest) =
      head ++ lowercaseAfter (u.reverse ++ before) rest := by
  induction u generalizing before with
  | nil => exact ⟨[], rfl⟩
  | cons c u ih =>
      obtain ⟨head, hhead⟩ := ih (c :: before)
      refine ⟨(if c = 'Σ' then [lowerSigma before (u ++ rest)] else lowerChar c) ++ head, ?_⟩
      rw [List.cons_append, lowercaseAfter, hhead, List.reverse_cons, List.append_assoc,
        List.append_assoc, List.singleton_append]

/-- A part without capital sigma is lower-cased to its folded form, whatever stands around
it. -/
theorem lowercaseAfter_append_of_not_mem (before a rest : List Char) (h : 'Σ' ∉ a) :
    lowercaseAfter before (a ++ rest) =
      foldCase a ++ lowercaseAfter (a.reverse ++ before) rest := by
  induction a generalizing before with
  | nil => rfl
  | cons c a ih =>
      have hc : c ≠ 'Σ' := fun heq => h (heq ▸ List.mem_cons_self)
      have ha : 'Σ' ∉ a := fun member => h (List.mem_cons_of_mem c member)
      have hfold : foldCase (c :: a) = lowerChar c ++ foldCase a := rfl
      rw [List.cons_append, lowercaseAfter, if_neg hc, ih _ ha, hfold, List.append_assoc,
        List.reverse_cons, List.append_assoc]
      rfl

theorem foldCase_starts {a : List Char} (h : 'Σ' ∉ a) (before w : List Char) :
    foldCase a <+: lowercaseAfter before (a ++ w) := by
  rw [lowercaseAfter_append_of_not_mem before a w h]
  exact List.prefix_append _ _

theorem foldCase_ends {a : List Char} (h : 'Σ' ∉ a) (before u : List Char) :
    foldCase a <:+ lowercaseAfter before (u ++ a) := by
  obtain ⟨head, hhead⟩ := exists_lowercaseAfter_append before u a
  rw [hhead, lowercaseAfter_eq_foldCase _ a h]
  exact List.suffix_append _ _

theorem foldCase_inside {a : List Char} (h : 'Σ' ∉ a) (before u w : List Char) :
    foldCase a <:+: lowercaseAfter before (u ++ a ++ w) := by
  obtain ⟨head, hhead⟩ := exists_lowercaseAfter_append before u (a ++ w)
  rw [List.append_assoc, hhead]
  exact (foldCase_starts h _ w).isInfix.trans (List.suffix_append head _).isInfix

/-- Texts without capital sigma that are equal but for case have one lower-case form. -/
theorem lowercase_eq_of_eqIgnoringCase {p q : String} (heq : eqIgnoringCase p q = true)
    (hp : 'Σ' ∉ p.toList) (hq : 'Σ' ∉ q.toList) : lowercase p = lowercase q := by
  rw [lowercase, lowercase, lowercaseAfter_eq_foldCase [] p.toList hp,
    lowercaseAfter_eq_foldCase [] q.toList hq, (eqIgnoringCase_iff p q).mp heq]

end Text

namespace Builtin

open Text

/-- One text stands inside another in the sense of lists. -/
theorem isWithin_iff_isInfix (part text : List Char) :
    isWithin part text = true ↔ part <:+: text := by
  induction text with
  | nil => rw [isWithin, List.isEmpty_iff, List.infix_nil]
  | cons c rest ih =>
      rw [isWithin, Bool.or_eq_true, List.isPrefixOf_iff_prefix, ih, List.infix_cons_iff]

theorem lowerText_ofString (text : String) :
    lowerText (.ofString text) = lowercaseAfter [] text.toList :=
  String.toList_ofList

/-- A text is found at the start, at the end and inside of any text that has one equal to it
but for case there, and a registry finds the same function for both, as long as neither has a
capital sigma. -/
theorem search_of_eqIgnoringCase {p q : String} (heq : eqIgnoringCase p q = true)
    (hp : 'Σ' ∉ p.toList) (hq : 'Σ' ∉ q.toList) :
    (∀ (u w : String) (next : Identity),
      registry.call "startsWith" [.ofString (p ++ u), .ofString q] next =
          .ok (.ofBool true, next) ∧
        registry.call "endsWith" [.ofString (u ++ p), .ofString q] next =
          .ok (.ofBool true, next) ∧
        registry.call "contains" [.ofString (u ++ p ++ w), .ofString q] next =
          .ok (.ofBool true, next)) ∧
      ∀ registry : Registry, registry.get? p = registry.get? q := by
  have hpart : lowerText (.ofString q) = foldCase p.toList := by
    rw [lowerText_ofString, lowercaseAfter_eq_foldCase [] q.toList hq,
      (eqIgnoringCase_iff p q).mp heq]
  constructor
  · intro u w next
    have hstart : (lowerText (.ofString q)).isPrefixOf (lowerText (.ofString (p ++ u))) =
        true := by
      rw [hpart, List.isPrefixOf_iff_prefix, lowerText_ofString, String.toList_append]
      exact foldCase_starts hp [] u.toList
    have hend : (lowerText (.ofString q)).isSuffixOf (lowerText (.ofString (u ++ p))) =
        true := by
      rw [hpart, List.isSuffixOf_iff_suffix, lowerText_ofString, String.toList_append]
      exact foldCase_ends hp [] u.toList
    have hinside : isContained (.ofString (u ++ p ++ w)) (.ofString q) = true := by
      have hwithin : isWithin (lowerText (.ofString q)) (lowerText (.ofString (u ++ p ++ w))) =
          true := by
        rw [hpart, isWithin_iff_isInfix, lowerText_ofString, String.toList_append,
          String.toList_append]
        exact foldCase_inside hp [] u.toList w.toList
      exact hwithin
    rw [call_startsWith, call_endsWith, call_contains, hstart, hend, hinside]
    exact ⟨rfl, rfl, rfl⟩
  · intro registry
    rw [Registry.get?, Registry.get?, lowercase_eq_of_eqIgnoringCase heq hp hq]

theorem search_of_eqIgnoringCase_umlaut :
    registry.call "contains" [.ofString ("ein" ++ "ÄRGER" ++ "nis"), .ofString "ärger"] 0 =
        .ok (.ofBool true, 0) ∧
      ∀ registry : Registry, registry.get? "ÄRGER" = registry.get? "ärger" := by
  have heq : eqIgnoringCase "ÄRGER" "ärger" = true := by decide +kernel
  have found := search_of_eqIgnoringCase heq (by decide) (by decide)
  exact ⟨(found.1 "ein" "nis" 0).2.2, found.2⟩

/-- With a capital sigma the two ways part. `ΑΣ` is equal to itself, but a text that goes on
after it does not start with it, since only at the end of a word it becomes a final sigma. And
it is equal to `ασ` but not registered under that name. -/
theorem not_search_of_eqIgnoringCase :
    (eqIgnoringCase "ΑΣ" "ΑΣ" = true ∧
      registry.call "startsWith" [.ofString ("ΑΣ" ++ "Α"), .ofString "ΑΣ"] 0 =
        .ok (.ofBool false, 0)) ∧
    (eqIgnoringCase "ΑΣ" "ασ" = true ∧
      ∃ registry : Registry, registry.get? "ασ" = none ∧ registry.get? "ΑΣ" ≠ none) := by
  refine ⟨⟨eqIgnoringCase_refl _, ?_⟩, ?_, ?_⟩
  · have hpart : (lowerText (.ofString "ΑΣ")).isPrefixOf
        (lowerText (.ofString ("ΑΣ" ++ "Α"))) = false := by
      decide +kernel
    rw [call_startsWith, hpart]
    rfl
  · decide +kernel
  · have hdiffer : lowercase "ασ" ≠ lowercase "ΑΣ" := by decide +kernel
    refine ⟨Registry.empty.register ⟨"ΑΣ", .exactly 0, startsWith⟩, ?_, ?_⟩
    · rw [Registry.get?_register, if_neg hdiffer]
      rfl
    · rw [Registry.get?_register, if_pos rfl]
      exact Option.some_ne_none _

end Builtin

end WorkflowExpr
