import WorkflowExpr.Registry

/-!
How computations run. From a state, the next unused identity, a computation yields a value
and a later state or ends in an error. The lemmas open sequencing once, so that statements
about evaluation never look inside the monad.
-/

namespace WorkflowExpr.Evaluation

variable {α β : Type} {x : Evaluation α} {f : α → Evaluation β} {next mid last : Identity}

@[simp] theorem pure_run (a : α) (next : Identity) :
    (pure a : Evaluation α) next = .ok (a, next) := rfl

@[simp] theorem throw_run (error : EvalError) (next : Identity) :
    (throw error : Evaluation α) next = .error error := rfl

theorem ok_ofBool_inj {a b : Bool} :
    (.ok (.ofBool a, next) : Except EvalError (TypedValue × Identity)) = .ok (.ofBool b, next) ↔
      a = b := by
  constructor
  · intro h
    cases h
    rfl
  · rintro rfl
    rfl

theorem ofFresh_pure (a : α) : ofFresh (pure a) = (pure a : Evaluation α) := rfl

theorem ofFresh_bind (fresh : Fresh α) (g : α → Fresh β) :
    ofFresh (fresh >>= g) = (ofFresh fresh >>= fun a => ofFresh (g a)) := rfl

theorem bind_of_ok {a : α} (h : x next = .ok (a, mid)) : (x >>= f) next = f a mid := by
  change (x next >>= fun out => f out.1 out.2) = _
  rw [h]
  rfl

theorem bind_of_error {error : EvalError} (h : x next = .error error) :
    (x >>= f) next = .error error := by
  change (x next >>= fun out => f out.1 out.2) = _
  rw [h]
  rfl

theorem bind_congr_left {y : Evaluation α} (h : x next = y next) :
    (x >>= f) next = (y >>= f) next := by
  change (x next >>= fun out => f out.1 out.2) = (y next >>= fun out => f out.1 out.2)
  rw [h]

/-- Only what the first part yields is passed on to the second. -/
theorem bind_congr_right {g : α → Evaluation β}
    (h : ∀ a mid, x next = .ok (a, mid) → f a mid = g a mid) :
    (x >>= f) next = (x >>= g) next := by
  cases hx : x next with
  | error error => rw [bind_of_error hx, bind_of_error hx]
  | ok out => rw [bind_of_ok hx, bind_of_ok hx, h out.1 out.2 hx]

/-- A sequence succeeds exactly when its parts succeed one after the other. -/
theorem bind_eq_ok {b : β} :
    (x >>= f) next = .ok (b, last) ↔
      ∃ a mid, x next = .ok (a, mid) ∧ f a mid = .ok (b, last) := by
  constructor
  · intro h
    cases hx : x next with
    | error error =>
        rw [bind_of_error hx] at h
        cases h
    | ok out => exact ⟨out.1, out.2, rfl, (bind_of_ok hx).symm.trans h⟩
  · rintro ⟨a, mid, hx, hf⟩
    rw [bind_of_ok hx, hf]

/-- A sequence fails where its first part fails, or else where its second part does. -/
theorem bind_eq_error {error : EvalError} :
    (x >>= f) next = .error error ↔
      x next = .error error ∨ ∃ a mid, x next = .ok (a, mid) ∧ f a mid = .error error := by
  constructor
  · intro h
    cases hx : x next with
    | error other =>
        rw [bind_of_error hx] at h
        cases h
        exact .inl rfl
    | ok out => exact .inr ⟨out.1, out.2, rfl, (bind_of_ok hx).symm.trans h⟩
  · rintro (hx | ⟨a, mid, hx, hf⟩)
    · exact bind_of_error hx
    · rw [bind_of_ok hx, hf]

end WorkflowExpr.Evaluation
