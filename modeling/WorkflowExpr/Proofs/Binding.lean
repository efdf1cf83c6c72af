import WorkflowExpr.Proofs.Provenance
import WorkflowExpr.Proofs.Simulation
import WorkflowExpr.Proofs.TypeTags

/-!
A part of an expression can be evaluated beforehand and bound to a name. What stands around
the part cannot tell: the two runs raise the same error or yield the same result, up to the
identities of new containers, and up to the type of null. The runs differ by one renaming
before they come to the part and by another one after it, which extends the first.
-/

namespace WorkflowExpr

open Evaluation TypedValue

/-- The runs of two expressions ended with the same error, or with results that differ only in
the identities of containers that the context does not hold. Null of unknown type may be
plain null in the second run. -/
inductive Context.SameOutcome (ctx : Context) :
    Except EvalError (TypedValue × Identity) → Except EvalError (TypedValue × Identity) → Prop
    where
  | error (error : EvalError) : SameOutcome ctx (.error error) (.error error)
  | ok {r r' : TypedValue} {last last' : Identity} (ρ : Identity → Identity)
      (hfixes : ∀ i ∈ ctx.held, ρ i = i)
      (hinj : Set.InjOn ρ (ctx.held ∪ {i | i ∈ r.value.identities}))
      (hvalue : r'.value = r.value.rename ρ)
      (hty : r'.ty = r.ty ∨ r = .unknown ∧ r'.ty = .null) :
      SameOutcome ctx (.ok (r, last)) (.ok (r', last'))

/-- A renaming between two runs from one context. What the context holds keeps its identity,
and whatever else the second run has is not older than a bound. -/
structure Renaming.Fits (ctx : Context) (bound : Identity) (ρ : Identity → Identity)
    (S : Set Identity) (next next' : Identity) : Prop extends Renaming ρ S next next' where
  holds : ctx.held ⊆ S
  fixes : ∀ i ∈ ctx.held, ρ i = i
  below : ctx.Below next
  recent : ∀ i ∈ S, i ∈ ctx.held ∨ bound ≤ ρ i

/-- A renaming agrees with another one on what was in use when a run had come to a state. -/
structure Renaming.Extends (ρ : Identity → Identity) (S : Set Identity) (next : Identity)
    (ρ' : Identity → Identity) (S' : Set Identity) : Prop where
  agrees : ∀ i ∈ S, i < next → ρ' i = ρ i
  keeps : ∀ i ∈ S, i < next → i ∈ S'

/-- Two runs from states related by a renaming ended alike, up to one that extends it. -/
inductive Alike (ρ : Identity → Identity) (S : Set Identity) (next : Identity) :
    Except EvalError (TypedValue × Identity) → Except EvalError (TypedValue × Identity) → Prop
    where
  | error (error : EvalError) : Alike ρ S next (.error error) (.error error)
  | ok {ρ' : Identity → Identity} {S' : Set Identity} {r r' : TypedValue}
      {last last' : Identity} (hextends : Renaming.Extends ρ S next ρ' S')
      (hrenaming : Renaming ρ' S' last last') (hrelated : Corresponds ρ' S' r r') :
      Alike ρ S next (.ok (r, last)) (.ok (r', last'))

variable {ctx ctx' : Context} {bound next next' mid mid' : Identity}
  {ρ ρ' : Identity → Identity} {S S' : Set Identity}

/-- What was in use in one run goes to what was in use in the other. -/
theorem Renaming.lt_of_lt (h : Renaming ρ S next next') {i : Identity} (hi : i ∈ S)
    (hlt : i < next) : ρ i < next' := by
  by_contra hge
  obtain ⟨k, hk⟩ := Nat.exists_eq_add_of_le (Nat.not_lt.mp hge)
  have hlater : next + k ∈ S := h.covers _ (Nat.le_add_right next k)
  have heq : i = next + k := h.injOn hi hlater (hk.trans (h.shifts k).symm)
  rw [heq] at hlt
  exact Nat.not_lt.mpr (Nat.le_add_right next k) hlt

namespace Renaming

theorem Extends.refl (ρ : Identity → Identity) (S : Set Identity) (next : Identity) :
    Extends ρ S next ρ S where
  agrees _ _ _ := rfl
  keeps _ hi _ := hi

theorem Extends.earlier (h : Extends ρ S mid ρ' S') (hle : next ≤ mid) :
    Extends ρ S next ρ' S' where
  agrees i hi hlt := h.agrees i hi (Nat.lt_of_lt_of_le hlt hle)
  keeps i hi hlt := h.keeps i hi (Nat.lt_of_lt_of_le hlt hle)

/-- A value that was in use corresponds to the same value as before. -/
theorem Extends.rename_eq (h : Extends ρ S next ρ' S') {v : Value} (hwithin : v.Within S)
    (hbelow : v.Within (Set.Iio next)) : v.rename ρ' = v.rename ρ ∧ v.Within S' :=
  ⟨Value.rename_congr fun i hi => h.agrees i (hwithin i hi) (hbelow i hi),
    fun i hi => h.keeps i (hwithin i hi) (hbelow i hi)⟩

theorem Extends.corresponds (h : Extends ρ S next ρ' S') {r r' : TypedValue}
    (hr : Corresponds ρ S r r') (hbelow : r.value.Within (Set.Iio next)) :
    Corresponds ρ' S' r r' := by
  obtain ⟨hrename, hwithin⟩ := h.rename_eq hr.within hbelow
  exact ⟨hr.value.trans hrename.symm, hwithin, hr.ty⟩

namespace Fits

/-- The second run is past the bound. -/
theorem bound_le (h : Fits ctx bound ρ S next next') : bound ≤ next' := by
  rcases h.recent next (h.covers next (Nat.le_refl next)) with hheld | hle
  · exact absurd (h.below next hheld) (Nat.lt_irrefl next)
  · rwa [h.next_eq] at hle

theorem advance (h : Fits ctx bound ρ S next next') (hrenaming : Renaming ρ S mid mid')
    (hle : next ≤ mid) : Fits ctx bound ρ S mid mid' where
  toRenaming := hrenaming
  holds := h.holds
  fixes := h.fixes
  below i hi := Nat.lt_of_lt_of_le (h.below i hi) hle
  recent := h.recent

/-- A name that both contexts bind alike stands for corresponding values, also later on. -/
theorem correspondsAt (h : Fits ctx bound ρ S next next') (hextends : Extends ρ S next ρ' S')
    {name : String} (hname : ctx'.get? name = ctx.get? name) :
    ctx.CorrespondsAt ρ' S' ctx' name := by
  have kept : ∀ v, ctx.get? name = some v → v.rename ρ' = v ∧ v.Within S' := by
    intro v hv
    have hheld : v.Within ctx.held := Context.within_held hv
    obtain ⟨hrename, hwithin⟩ := hextends.rename_eq (hheld.mono h.holds) fun i hi =>
      h.below i (hheld i hi)
    exact ⟨hrename.trans (Value.rename_eq_self fun i hi => h.fixes i (hheld i hi)), hwithin⟩
  refine ⟨?_, fun v hv => (kept v hv).2⟩
  rw [hname]
  cases hv : ctx.get? name with
  | none => rfl
  | some v => rw [Option.map_some, (kept v hv).1]

/-- What a run from a state yields is older than the state it ends in. -/
theorem within_Iio (h : Fits ctx bound ρ S next next') {v : Value}
    (hwithin : v.Within (ctx.held ∪ Set.Ico next mid)) (hle : next ≤ mid) :
    v.Within (Set.Iio mid) := by
  intro i hi
  rcases hwithin i hi with hheld | ⟨-, hlt⟩
  · exact Nat.lt_of_lt_of_le (h.below i hheld) hle
  · exact hlt

end Fits

end Renaming

open Renaming

namespace Alike

variable {α β : Type} {R : α → β → Prop} {out out' : Except EvalError (TypedValue × Identity)}

theorem of_outcomes (h : Outcomes ρ' S' (Corresponds ρ' S') out out')
    (hextends : Extends ρ S next ρ' S') : Alike ρ S next out out' := by
  cases h with
  | error error => exact .error error
  | ok hrenaming hrelated => exact .ok hextends hrenaming hrelated

theorem earlier (h : Alike ρ S mid out out') (hle : next ≤ mid) : Alike ρ S next out out' := by
  cases h with
  | error error => exact .error error
  | ok hextends hrenaming hrelated => exact .ok (hextends.earlier hle) hrenaming hrelated

/-- Runs that are alike up to some part go on alike. -/
theorem bind {x y : Evaluation TypedValue} {f g : TypedValue → Evaluation TypedValue}
    (hx : Alike ρ S next (x next) (y next'))
    (hf : ∀ {ρ' S'}, Extends ρ S next ρ' S' → ∀ r r', Corresponds ρ' S' r r' →
      Simulates ρ' S' (Corresponds ρ' S') (f r) (g r')) :
    Alike ρ S next ((x >>= f) next) ((y >>= g) next') := by
  generalize hout : x next = out at hx
  generalize hout' : y next' = out' at hx
  cases hx with
  | error error =>
      rw [bind_of_error hout, bind_of_error hout']
      exact .error error
  | ok hextends hrenaming hrelated =>
      rw [bind_of_ok hout, bind_of_ok hout']
      exact of_outcomes (hf hextends _ _ hrelated _ _ hrenaming) hextends

/-- What comes before the part does the same in both runs. -/
theorem after {x : Evaluation α} {y : Evaluation β} {f : α → Evaluation TypedValue}
    {g : β → Evaluation TypedValue} (hfits : Fits ctx bound ρ S next next')
    (hx : Outcomes ρ S R (x next) (y next')) (hle : ∀ a mid, x next = .ok (a, mid) → next ≤ mid)
    (hthen : ∀ a b mid mid', x next = .ok (a, mid) → R a b → Fits ctx bound ρ S mid mid' →
      Alike ρ S mid (f a mid) (g b mid')) :
    Alike ρ S next ((x >>= f) next) ((y >>= g) next') := by
  generalize hout : x next = out at hx
  generalize hout' : y next' = out' at hx
  cases hx with
  | error error =>
      rw [bind_of_error hout, bind_of_error hout']
      exact .error error
  | ok hrenaming hrelated =>
      rw [bind_of_ok hout, bind_of_ok hout']
      have hmid := hle _ _ hout
      exact (hthen _ _ _ _ hout hrelated (hfits.advance hrenaming hmid)).earlier hmid

end Alike

namespace Frame

open Eval WorkflowExpr.Expr

variable {part part' : Expr}

/-- A part evaluated before the one left out gives corresponding results, which are not
affected by what the renaming becomes later. -/
theorem left_alike {left : Expr} {f g : TypedValue → Evaluation TypedValue}
    (hfits : Fits ctx bound ρ S next next')
    (hnames : ∀ name ∈ left.variableNames, ctx'.get? name = ctx.get? name)
    (hthen : ∀ l l' mid mid', Corresponds ρ S l l' → l.value.Within (Set.Iio mid) →
      Fits ctx bound ρ S mid mid' → Alike ρ S mid (f l mid) (g l' mid')) :
    Alike ρ S next ((left.eval Builtin.registry ctx >>= f) next)
      ((left.eval Builtin.registry ctx' >>= g) next') := by
  have hleft := eval_simulates fun name member =>
    hfits.correspondsAt (Extends.refl ρ S next) (hnames name member)
  refine Alike.after hfits (hleft _ _ hfits.toRenaming) (fun l mid hl => (eval_within hl).1) ?_
  intro l l' mid mid' hl hrelated hlater
  obtain ⟨hle, hwithin⟩ := eval_within hl
  exact hthen l l' mid mid' hrelated (hfits.within_Iio hwithin hle) hlater

/-- A node does the same in two runs if the part put in does and the contexts agree on the
rest. -/
theorem plug_alike {frame : Frame}
    (hnames : ∀ name ∈ frame.variableNames, ctx'.get? name = ctx.get? name)
    (hpart : ∀ {next next'}, Fits ctx bound ρ S next next' → Alike ρ S next
      (part.eval Builtin.registry ctx next) (part'.eval Builtin.registry ctx' next'))
    (hfits : Fits ctx bound ρ S next next') :
    Alike ρ S next ((frame.plug part).eval Builtin.registry ctx next)
      ((frame.plug part').eval Builtin.registry ctx' next') := by
  cases frame with
  | property span name =>
      simp only [plug, eval]
      exact (hpart hfits).bind fun _ r r' hr =>
        propertyValue_simulates (corresponds_relates _ _) hr name.name
  | indexOperand span position =>
      simp only [plug, eval]
      refine (hpart hfits).bind fun hextends r r' hr => (indexable_simulates hr).bind ?_
      rintro items _ ⟨rfl, hitems⟩
      have hposition := eval_simulates fun name member =>
        hfits.correspondsAt hextends (hnames name member)
      refine hposition.bind fun i i' hi => ?_
      rw [hi.toNumber]
      exact itemAt_simulates (corresponds_relates _ _) hitems _
  | indexPosition span operand =>
      simp only [plug, eval]
      refine left_alike hfits hnames fun r r' mid mid' hr hbelow hlater => ?_
      refine Alike.after hlater (indexable_simulates hr _ _ hlater.toRenaming) ?_ ?_
      · intro items now hitems
        obtain ⟨-, -, rfl⟩ := indexable_eq_ok.mp hitems
        exact Nat.le_refl now
      · rintro items _ now now' hitems ⟨rfl, hwithin⟩ hnow
        obtain ⟨identity, hvalue, rfl⟩ := indexable_eq_ok.mp hitems
        rw [hvalue] at hbelow
        refine (hpart hnow).bind fun hextends i i' hi => ?_
        have hlater : ∀ item ∈ items, item.rename _ = item.rename ρ ∧ item.Within _ :=
          fun item member => hextends.rename_eq (hwithin item member)
            ((Value.within_array.mp hbelow).2 item member)
        rw [hi.toNumber, ← List.map_congr_left fun item member => (hlater item member).1]
        have hwithin := fun item member => (hlater item member).2
        exact itemAt_simulates (corresponds_relates _ _) hwithin _
  | not span =>
      simp only [plug, eval]
      refine (hpart hfits).bind fun _ r r' hr => ?_
      rw [hr.falsy]
      exact Simulates.pure (corresponds_of_isPrimitive rfl)
  | compareLeft span op right =>
      simp only [plug, eval]
      refine (hpart hfits).bind fun hextends l l' hl => ?_
      have hright := eval_simulates fun name member =>
        hfits.correspondsAt hextends (hnames name member)
      refine hright.bind fun r r' hr next next' hrenaming => ?_
      rw [compareBy_eq hrenaming.injOn op hl hr]
      exact Simulates.pure (corresponds_of_isPrimitive rfl) next next' hrenaming
  | compareRight span op left =>
      simp only [plug, eval]
      refine left_alike hfits hnames fun l l' mid mid' hl hbelow hlater => ?_
      refine (hpart hlater).bind fun hextends r r' hr next next' hrenaming => ?_
      rw [compareBy_eq hrenaming.injOn op (hextends.corresponds hl hbelow) hr]
      exact Simulates.pure (corresponds_of_isPrimitive rfl) next next' hrenaming
  | logicalLeft span op right =>
      simp only [plug, eval]
      refine (hpart hfits).bind fun hextends l l' hl => ?_
      rw [decidedBy?_eq op hl]
      cases decidedBy? op l with
      | some b => exact Simulates.pure (corresponds_of_isPrimitive rfl)
      | none =>
          have hright := eval_simulates fun name member =>
            hfits.correspondsAt hextends (hnames name member)
          refine hright.bind fun r r' hr => ?_
          rw [truthy, truthy, hr.falsy]
          exact Simulates.pure (corresponds_of_isPrimitive rfl)
  | logicalRight span op left =>
      simp only [plug, eval]
      refine left_alike hfits hnames fun l l' mid mid' hl hbelow hlater => ?_
      rw [decidedBy?_eq op hl]
      cases decidedBy? op l with
      | some b =>
          have hsame : Outcomes ρ S (Corresponds ρ S) _ _ :=
            Simulates.pure (corresponds_of_isPrimitive (v := .bool b) rfl) _ _ hlater.toRenaming
          exact Alike.of_outcomes hsame (Extends.refl ρ S mid)
      | none =>
          refine (hpart hlater).bind fun hextends r r' hr => ?_
          rw [truthy, truthy, hr.falsy]
          exact Simulates.pure (corresponds_of_isPrimitive rfl)
  | argument span callee before after =>
      rw [variableNames, List.forall_mem_append] at hnames
      simp only [plug, eval, evalArgs_append_bind]
      have hbefore := evalArgs_simulates fun name member =>
        hfits.correspondsAt (Extends.refl ρ S next) (hnames.1 name member)
      refine Alike.after hfits (hbefore _ _ hfits.toRenaming)
        (fun rs mid hrs => (evalArgs_within hrs).1) ?_
      intro rs rs' mid mid' hresults hrelated hlater
      obtain ⟨hle, hwithin⟩ := evalArgs_within hresults
      have hbelow : ∀ r ∈ rs, r.value.Within (Set.Iio mid) :=
        fun r member => hfits.within_Iio (hwithin r member) hle
      simp only [evalArgs, bind_assoc, pure_bind]
      refine (hpart hlater).bind fun hextends r r' hr => ?_
      have hafter := evalArgs_simulates fun name member =>
        hlater.correspondsAt hextends (hnames.2 name member)
      refine hafter.bind fun rest rest' hrest =>
        Builtin.call_simulates (corresponds_relates _ _) callee.name ?_
      have hfirst := (List.forall₂_and_left rs rs').mpr ⟨hbelow, hrelated⟩
      have hkept := hfirst.imp fun r r' hr => hextends.corresponds hr.2 hr.1
      exact List.rel_append hkept (.cons hr hrest)

/-- If two parts do the same, so do the expressions around them. -/
theorem fill_alike {frames : List Frame}
    (hnames : ∀ frame ∈ frames, ∀ name ∈ frame.variableNames, ctx'.get? name = ctx.get? name)
    (hpart : ∀ {next next'}, Fits ctx bound ρ S next next' → Alike ρ S next
      (part.eval Builtin.registry ctx next) (part'.eval Builtin.registry ctx' next'))
    (hfits : Fits ctx bound ρ S next next') :
    Alike ρ S next ((fill frames part).eval Builtin.registry ctx next)
      ((fill frames part').eval Builtin.registry ctx' next') := by
  induction frames generalizing next next' with
  | nil => exact hpart hfits
  | cons frame frames ih =>
      rw [List.forall_mem_cons] at hnames
      rw [fill_cons, fill_cons]
      exact plug_alike hnames.1 (fun hinner => ih hnames.2 hinner) hfits

end Frame

/-- The identities from one state on become those from another state on. -/
def shift (start start' i : Nat) : Nat := if i < start then i else start' + (i - start)

theorem shift_of_le {start start' i : Nat} (h : start ≤ i) :
    shift start start' i = start' + (i - start) := if_neg (Nat.not_lt.mpr h)

/-- A shift is a renaming around identities that are in use in both runs. -/
theorem shift_renaming {H : Set Nat} {start start' : Nat} (h : ∀ i ∈ H, i < start)
    (h' : ∀ i ∈ H, i < start') :
    Renaming (shift start start') (H ∪ Set.Ici start) start start' := by
  have low : ∀ i ∈ H, shift start start' i = i := fun i hi => if_pos (h i hi)
  refine { injOn := ?_, covers := fun i hi => .inr hi, shifts := ?_ }
  · rintro (i : Nat) hi (j : Nat) hj heq
    rcases hi with hi | hi <;> rcases hj with hj | hj
    · rwa [low i hi, low j hj] at heq
    · rw [low i hi, shift_of_le hj] at heq
      have hlt : i < start' := h' i hi
      change i = start' + (j - start) at heq
      omega
    · rw [shift_of_le hi, low j hj] at heq
      have hlt : j < start' := h' j hj
      change start' + (i - start) = j at heq
      omega
    · rw [shift_of_le hi, shift_of_le hj] at heq
      change start ≤ i at hi
      change start ≤ j at hj
      change start' + (i - start) = start' + (j - start) at heq
      change i = j
      omega
  · intro (k : Nat)
    change shift start start' (start + k) = start' + k
    rw [shift_of_le (Nat.le_add_right start k), Nat.add_sub_cancel_left]

theorem shift_fits {start start' : Nat} (h : ctx.Below start) (h' : ctx.Below start') :
    Fits ctx start' (shift start start') (ctx.held ∪ Set.Ici start) start start' where
  toRenaming := shift_renaming h h'
  holds := Set.subset_union_left
  fixes i hi := if_pos (h i hi)
  below := h
  recent := by
    rintro (i : Nat) (hi | hi)
    · exact .inl hi
    · refine .inr ?_
      rw [shift_of_le hi]
      exact Nat.le_add_right start' (i - start)

/-- What a part made in the first run, between two states, it made beforehand in the second
run. What comes later is new in both. -/
def redirect (ρ : Nat → Nat) (next last made next' i : Nat) : Nat :=
  if i < next then ρ i else if i < last then made + (i - next) else next' + (i - last)

theorem redirect_renaming {ρ : Nat → Nat} {next next' last made bound : Nat} {S T : Set Nat}
    (h : Fits ctx bound ρ S next next') (hmade : ctx.Below made) (hle : next ≤ last)
    (hT : ∀ i ∈ T, next ≤ i ∧ i < last ∧ made + (i - next) < bound) :
    Renaming (redirect ρ next last made next') (S ∩ Set.Iio next ∪ T ∪ Set.Ici last) last
      next' := by
  have early : ∀ i : Nat, i < next → redirect ρ next last made next' i = ρ i :=
    fun i hi => if_pos hi
  have late : ∀ i : Nat, last ≤ i → redirect ρ next last made next' i = next' + (i - last) := by
    intro i hi
    rw [redirect, if_neg (by omega), if_neg (by omega)]
  have hbound : bound ≤ next' := h.bound_le
  -- The three parts of the set go to three parts that do not meet.
  have place : ∀ i ∈ S ∩ Set.Iio next ∪ T ∪ Set.Ici last,
      (i ∈ S ∧ redirect ρ next last made next' i = ρ i ∧ ρ i < next' ∧
        (ρ i < made ∨ bound ≤ ρ i)) ∨
      (next ≤ i ∧ redirect ρ next last made next' i = made + (i - next) ∧
        made + (i - next) < bound) ∨
      (last ≤ i ∧ redirect ρ next last made next' i = next' + (i - last)) := by
    rintro i ((⟨hi, hlt⟩ | hi) | hi)
    · refine .inl ⟨hi, early i hlt, h.lt_of_lt hi hlt, ?_⟩
      rcases h.recent i hi with hheld | hrecent
      · rw [h.fixes i hheld]
        exact .inl (hmade i hheld)
      · exact .inr hrecent
    · obtain ⟨hstart, hlast, hbefore⟩ := hT i hi
      refine .inr (.inl ⟨hstart, ?_, hbefore⟩)
      rw [redirect, if_neg (by omega), if_pos hlast]
    · exact .inr (.inr ⟨hi, late i hi⟩)
  refine { injOn := ?_, covers := fun i hi => .inr hi, shifts := ?_ }
  · rintro (i : Nat) hi (j : Nat) hj heq
    change redirect ρ next last made next' i = redirect ρ next last made next' j at heq
    change i = j
    rcases place i hi with ⟨hiS, hi⟩ | hi | hi <;> rcases place j hj with ⟨hjS, hj⟩ | hj | hj
    case inl.inl => exact h.injOn hiS hjS (hi.1.symm.trans (heq.trans hj.1))
    all_goals omega
  · intro (k : Nat)
    change redirect ρ next last made next' (last + k) = next' + k
    rw [late (last + k) (Nat.le_add_right last k), Nat.add_sub_cancel_left]

/-- Redirecting undoes a shift on what the part has from the context or made itself. -/
theorem redirect_shift {ρ : Nat → Nat} {next next' start final bound i : Nat} {S : Set Nat}
    (h : Fits ctx bound ρ S next next') (hstart : ctx.Below start)
    (hi : i ∈ ctx.held ∪ Set.Ico start final) :
    redirect ρ next (next + (final - start)) start next' (shift start next i) = i := by
  rcases hi with hheld | ⟨hfrom, huntil⟩
  · rw [shift, if_pos (hstart i hheld), redirect, if_pos (h.below i hheld)]
    exact h.fixes i hheld
  · change start ≤ i at hfrom
    change i < final at huntil
    rw [shift_of_le hfrom, redirect, if_neg (by omega), if_pos (by omega)]
    omega

/-- A new identity in a shifted value was taken by the part, at as great a distance from where
the part's run started. -/
theorem mem_rename_shift {v : Value} {start final next bound i : Nat} (hstart : ctx.Below start)
    (hnext : ctx.Below next) (hwithin : v.Within (ctx.held ∪ Set.Ico start final))
    (hbound : v.Within (Set.Iio bound)) (hi : i ∈ (v.rename (shift start next)).identities)
    (hle : next ≤ i) : i < next + (final - start) ∧ start + (i - next) < bound := by
  obtain ⟨(j : Nat), hj, hji⟩ := Value.mem_identities_rename.mp hi
  have hjbound : j < bound := hbound j hj
  rcases hwithin j hj with hheld | ⟨hfrom, huntil⟩
  · have hlt : j < next := hnext j hheld
    have hsame : j = i := (if_pos (hstart j hheld)).symm.trans hji
    omega
  · have hmoved : next + (j - start) = i := (shift_of_le hfrom).symm.trans hji
    change start ≤ j at hfrom
    change j < final at huntil
    omega

/-- An evaluation from another state yields the same up to a shift, and takes as many
identities. -/
theorem Expr.eval_shift {e : Expr} {r : TypedValue} {start start' final : Nat}
    (he : e.eval Builtin.registry ctx start = .ok (r, final)) (h : ctx.Below start)
    (h' : ctx.Below start') :
    ∃ r', e.eval Builtin.registry ctx start' = .ok (r', start' + (final - start)) ∧
      r'.value = r.value.rename (shift start start') := by
  have hshift := shift_fits h h'
  have hmoved := eval_simulates (e := e) (fun name _ =>
    hshift.correspondsAt (Extends.refl _ _ start) rfl) start start' hshift.toRenaming
  have hle := (eval_within he).1
  rw [he] at hmoved
  generalize e.eval Builtin.registry ctx start' = out at hmoved ⊢
  cases hmoved with
  | ok hrenaming hrelated =>
      have hlast := (shift_of_le hle).symm.trans hrenaming.next_eq
      exact ⟨_, by rw [hlast], hrelated.value⟩

/-- The part itself, evaluated in the first run, yields what the name stands for in the
second. -/
theorem hole_alike {e : Expr} {r : TypedValue} {name : String} {start final next next' : Nat}
    (span : Span) (he : e.eval Builtin.registry ctx start = .ok (r, final))
    (hstart : ctx.Below start) (hbound : r.value.Within (Set.Iio bound))
    (hname : ctx'.get? name = some r.value) (hfits : Fits ctx bound ρ S next next') :
    Alike ρ S next (e.eval Builtin.registry ctx next)
      ((Expr.var span name).eval Builtin.registry ctx' next') := by
  obtain ⟨r', hrun, hvalue⟩ := Expr.eval_shift he hstart hfits.below
  obtain ⟨hle, hwithin⟩ := Expr.eval_within he
  obtain ⟨hlast, hwithin'⟩ := Expr.eval_within hrun
  have hvar : (Expr.var span name).eval Builtin.registry ctx' next' =
      .ok (.ofValue r.value, next') := Eval.variableValue_eq_ok.mpr ⟨r.value, hname, rfl, rfl⟩
  rw [hrun, hvar]
  let T : Set Nat := {i | i ∈ r'.value.identities ∧ next ≤ i}
  have hT : ∀ i ∈ T, next ≤ i ∧ i < next + (final - start) ∧ start + (i - next) < bound := by
    rintro i ⟨hi, hnew⟩
    rw [hvalue] at hi
    exact ⟨hnew, mem_rename_shift hstart hfits.below hwithin hbound hi hnew⟩
  have hback :
      r'.value.rename (redirect ρ next (next + (final - start)) start next') = r.value := by
    rw [hvalue, Value.rename_rename]
    exact Value.rename_eq_self fun i hi => redirect_shift hfits hstart (hwithin i hi)
  have hrelated : Corresponds (redirect ρ next (next + (final - start)) start next')
      (S ∩ Set.Iio next ∪ T ∪ Set.Ici (next + (final - start))) r' (.ofValue r.value) := by
    refine ⟨hback.symm, ?_, ?_⟩
    · intro i hi
      rcases hwithin' i hi with hheld | hnew
      · exact .inl (.inl ⟨hfits.holds hheld, hfits.below i hheld⟩)
      · exact .inl (.inr ⟨hi, hnew.1⟩)
    · rcases Expr.eval_classified hrun with hr | ⟨hr, -⟩
      · left
        rw [show r'.ty = r'.value.classify from hr, hvalue, Value.classify_rename]
        rfl
      · refine .inr ⟨hr, ?_⟩
        change r.value.classify = .null
        rw [← Value.classify_rename, ← hvalue, hr]
        rfl
  have hextends : Extends ρ S next (redirect ρ next (next + (final - start)) start next')
      (S ∩ Set.Iio next ∪ T ∪ Set.Ici (next + (final - start))) :=
    ⟨fun i _ hlt => if_pos hlt, fun i hi hlt => .inl (.inl ⟨hi, hlt⟩)⟩
  exact .ok hextends (redirect_renaming hfits hstart hlast hT) hrelated

/-- Binding the value of a part to a name that occurs nowhere else, and putting the name in
the part's place, changes nothing. -/
theorem Expr.bind_transparent {frames : List Frame} {e : Expr} {name : String} {span : Span}
    {r : TypedValue} {start final next next' : Identity}
    (hfree : ∀ frame ∈ frames, name ∉ frame.variableNames)
    (he : e.eval Builtin.registry ctx start = .ok (r, final))
    (hstart : ctx.Below start) (hnext : ctx.Below next) (hnext' : ctx.Below next')
    (hr : ∀ i ∈ r.value.identities, i < next') :
    ctx.SameOutcome ((Frame.fill frames e).eval Builtin.registry ctx next)
      ((Frame.fill frames (.var span name)).eval Builtin.registry (ctx.insert name r.value)
        next') := by
  have hname : (ctx.insert name r.value).get? name = some r.value := by
    rw [Context.get?_insert, if_pos rfl]
  have hothers : ∀ frame ∈ frames, ∀ other ∈ frame.variableNames,
      (ctx.insert name r.value).get? other = ctx.get? other := by
    intro frame hframe other hother
    rw [Context.get?_insert, if_neg]
    rintro rfl
    exact hfree frame hframe hother
  have hfits := shift_fits hnext hnext'
  have halike := Frame.fill_alike hothers
    (fun hfits => hole_alike span he hstart hr hname hfits) hfits
  generalize (Frame.fill frames e).eval Builtin.registry ctx next = out at halike ⊢
  generalize (Frame.fill frames (.var span name)).eval Builtin.registry
    (ctx.insert name r.value) next' = out' at halike ⊢
  cases halike with
  | error error => exact .error error
  | @ok ρ S first second last last' hextends hrenaming hrelated =>
      refine .ok ρ ?_ ?_ hrelated.value hrelated.ty
      · intro i hi
        exact (hextends.agrees i (.inl hi) (hnext i hi)).trans (hfits.fixes i hi)
      · refine hrenaming.injOn.mono (Set.union_subset ?_ hrelated.within)
        exact fun i hi => hextends.keeps i (.inl hi) (hnext i hi)

theorem arrayContext_below : arrayContext.Below 1 := by
  rintro i ⟨name, v, hv, hi⟩
  have hget : arrayContext.get? name =
      if name = "x" then some (.array 0 [.bool true]) else none := rfl
  rw [hget] at hv
  split at hv
  · cases hv
    cases hi with
    | head => exact Nat.zero_lt_one
    | tail _ hi => cases hi
  · cases hv

/-- The array that `x` stands for is also the one that `y` stands for when bound to it. -/
theorem Expr.bind_transparent_shared :
    (∀ frame ∈ [Frame.compareLeft .nowhere .eq (.var .nowhere "x")],
      "y" ∉ frame.variableNames) ∧
    (Expr.var .nowhere "x").eval Builtin.registry arrayContext 1 =
      .ok (.ofValue (.array 0 [.bool true]), 1) ∧
    arrayContext.Below 1 ∧
    arrayContext.SameOutcome
      ((Frame.fill [.compareLeft .nowhere .eq (.var .nowhere "x")] (.var .nowhere "x")).eval
        Builtin.registry arrayContext 1)
      ((Frame.fill [.compareLeft .nowhere .eq (.var .nowhere "x")] (.var .nowhere "y")).eval
        Builtin.registry (arrayContext.insert "y" (.array 0 [.bool true])) 1) := by
  have hfree : ∀ frame ∈ [Frame.compareLeft .nowhere .eq (.var .nowhere "x")],
      "y" ∉ frame.variableNames := by
    simp [Frame.variableNames, variableNames]
  have heval : (Expr.var .nowhere "x").eval Builtin.registry arrayContext 1 =
      .ok (.ofValue (.array 0 [.bool true]), 1) := rfl
  have hused : ∀ i ∈ (TypedValue.ofValue (.array 0 [.bool true])).value.identities, i < 1 := by
    simp [TypedValue.ofValue, Value.identities, Value.identitiesOfItems]
  have hsame := @bind_transparent arrayContext _ _ "y" .nowhere _ 1 1 1 1 hfree heval
    arrayContext_below arrayContext_below arrayContext_below hused
  exact ⟨hfree, heval, arrayContext_below, hsame⟩

end WorkflowExpr
