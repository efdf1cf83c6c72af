import Mathlib.Data.List.Infix
import WorkflowExpr.Proofs.CaseFolding

/-!
Searching in texts. The three functions that search compare lower-case forms. A text in lower
case stays as it is, because no lower-case form of a character is changed again: a run of the
table never leads into another one. So the functions cannot tell a text from its lower-case form,
and each of them is a partial order on lower-case forms.
-/

namespace WorkflowExpr

namespace Text

/-- Whether no character of a run has its lower-case form in another run. The forms lie before
the other run, behind it or between its steps. -/
def LowerRun.avoids (run other : LowerRun) : Bool :=
  let least := (run.first + run.offset).toNat
  let greatest := (run.last + run.offset).toNat
  Nat.blt greatest other.first || Nat.blt other.last least ||
    (other.step == 2 && (run.step == 2 || run.first == run.last) &&
      Nat.blt other.first least && (least + other.first) % 2 == 1)

/-- All characters that lower case changes, the dotted capital I among them. -/
def changedRuns : List LowerRun := ⟨'İ'.toNat, 'İ'.toNat, 1, 0⟩ :: lowerRuns

theorem lowerRuns_avoid_changedRuns :
    (lowerRuns.all fun run => changedRuns.all run.avoids) = true := by
  decide +kernel

theorem LowerRun.not_covers_of_avoids {run other : LowerRun} {code : Nat}
    (h : run.avoids other = true) (hcode : run.covers code = true) :
    other.covers (code + run.offset).toNat = false := by
  obtain ⟨first, last, step, offset⟩ := run
  obtain ⟨first', last', step', offset'⟩ := other
  simp only [avoids, Bool.or_eq_true, Bool.and_eq_true, Nat.blt_eq, beq_iff_eq] at h
  simp only [covers, Bool.and_eq_true, decide_eq_true_eq, beq_iff_eq] at hcode
  rw [Bool.eq_false_iff]
  simp only [covers, ne_eq, Bool.and_eq_true, decide_eq_true_eq, beq_iff_eq]
  rintro ⟨⟨hfirst, hlast⟩, hstep⟩
  rcases h with (hbefore | hbehind) | ⟨⟨⟨rfl, rfl | rfl⟩, hinside⟩, hparity⟩ <;> omega

/-- A number that is no code point stands for the first of all characters. -/
theorem ofNat_cases (code : Nat) : (Char.ofNat code).toNat = code ∨ Char.ofNat code = '\x00' := by
  by_cases h : code.isValidChar
  · rw [Char.ofNat, dif_pos h]
    exact .inl rfl
  · rw [Char.ofNat, dif_neg h]
    exact .inr rfl

theorem lowerChar_of_not_covers {c : Char} (h : ∀ run ∈ changedRuns, run.covers c.toNat = false) :
    lowerChar c = [c] := by
  have hdotted : c ≠ 'İ' := by
    rintro rfl
    have hcovers := h _ List.mem_cons_self
    revert hcovers
    decide
  have hnone : lowerRuns.find? (·.covers c.toNat) = none := by
    rw [List.find?_eq_none]
    intro run member
    rw [h run (List.mem_cons_of_mem _ member)]
    exact Bool.false_ne_true
  rw [lowerChar, if_neg hdotted, hnone]

/-- The lower-case form of a character does not change in lower case. -/
theorem lowerChar_of_mem {c d : Char} (h : d ∈ lowerChar c) : lowerChar d = [d] := by
  by_cases hdotted : c = 'İ'
  · rw [lowerChar, if_pos hdotted] at h
    rcases List.mem_pair.mp h with rfl | rfl <;> decide +kernel
  · rw [lowerChar, if_neg hdotted] at h
    cases hfind : lowerRuns.find? (·.covers c.toNat) with
    | none =>
        rw [hfind] at h
        cases List.mem_singleton.mp h
        rw [lowerChar, if_neg hdotted, hfind]
    | some run =>
        rw [hfind] at h
        cases List.mem_singleton.mp h
        have hcovers := List.find?_some hfind
        have hrun := List.all_eq_true.mp lowerRuns_avoid_changedRuns run
          (List.mem_of_find?_eq_some hfind)
        -- no run leads outside the code points, but the null character would be lower case too
        rcases ofNat_cases (c.toNat + run.offset).toNat with hcode | hnull
        · apply lowerChar_of_not_covers
          rw [hcode]
          intro other member
          exact LowerRun.not_covers_of_avoids (List.all_eq_true.mp hrun other member) hcovers
        · rw [hnull]
          decide +kernel

/-- Whether lower case changes none of the characters of a text, each on its own. -/
def Lowered (text : List Char) : Prop := ∀ c ∈ text, lowerChar c = [c]

theorem lowered_lowercaseAfter (before text : List Char) :
    Lowered (lowercaseAfter before text) := by
  induction text generalizing before with
  | nil => exact fun _ h => absurd h List.not_mem_nil
  | cons c rest ih =>
      intro d h
      rw [lowercaseAfter] at h
      rcases List.mem_append.mp h with hfirst | hrest
      · by_cases hsigma : c = 'Σ'
        · rw [if_pos hsigma] at hfirst
          cases List.mem_singleton.mp hfirst
          rw [lowerSigma]
          split <;> decide +kernel
        · rw [if_neg hsigma] at hfirst
          exact lowerChar_of_mem hfirst
      · exact ih _ d hrest

/-- In such a text there is no capital sigma, so what stands around a character does not
matter. -/
theorem Lowered.lowercaseAfter_eq {text : List Char} (h : Lowered text) (before : List Char) :
    lowercaseAfter before text = text := by
  induction text generalizing before with
  | nil => rfl
  | cons c rest ih =>
      have hc : lowerChar c = [c] := h c List.mem_cons_self
      have hsigma : c ≠ 'Σ' := by
        rintro rfl
        revert hc
        decide +kernel
      rw [lowercaseAfter, if_neg hsigma, hc, ih fun d member => h d (List.mem_cons_of_mem c member)]
      rfl

/-- Lower case is reached in one step. -/
theorem lowercase_lowercase (text : String) : lowercase (lowercase text) = lowercase text := by
  have hlowered := lowered_lowercaseAfter [] text.toList
  rw [lowercase, lowercase, String.toList_ofList, hlowered.lowercaseAfter_eq]

end Text

namespace Builtin

open Text

/-- Where in a text another one is searched for. -/
inductive Place where
  | start
  | finish
  | anywhere
deriving DecidableEq, Repr

namespace Place

def function : Place → String
  | .start => "startsWith"
  | .finish => "endsWith"
  | .anywhere => "contains"

def Has : Place → List Char → List Char → Prop
  | .start, whole, part => part <+: whole
  | .finish, whole, part => part <:+ whole
  | .anywhere, whole, part => part <:+: whole

instance : ∀ (place : Place) (whole part : List Char), Decidable (place.Has whole part)
  | .start, whole, part => inferInstanceAs (Decidable (part <+: whole))
  | .finish, whole, part => inferInstanceAs (Decidable (part <:+ whole))
  | .anywhere, whole, part => inferInstanceAs (Decidable (part <:+: whole))

variable {a b c : List Char} (place : Place)

theorem has_anywhere (h : place.Has a b) : anywhere.Has a b := by
  cases place with
  | start => exact List.IsPrefix.isInfix h
  | finish => exact List.IsSuffix.isInfix h
  | anywhere => exact h

theorem has_refl (a : List Char) : place.Has a a := by
  cases place with
  | start => exact List.prefix_refl a
  | finish => exact List.suffix_refl a
  | anywhere => exact List.infix_refl a

theorem has_trans (hab : place.Has a b) (hbc : place.Has b c) : place.Has a c := by
  cases place with
  | start => exact List.IsPrefix.trans hbc hab
  | finish => exact List.IsSuffix.trans hbc hab
  | anywhere => exact List.IsInfix.trans hbc hab

theorem has_antisymm (hab : place.Has a b) (hba : place.Has b a) : a = b :=
  List.infix_antisymm (place.has_anywhere hba) (place.has_anywhere hab)

end Place

variable {whole : TypedValue}

/-- The functions that search compare lower-case forms, unless they search in an array. -/
theorem call_place (place : Place) (hwhole : whole.value.tag ≠ .array) (part : TypedValue) :
    registry.call place.function [whole, part] =
      return .ofBool (decide (place.Has (lowerText whole) (lowerText part))) := by
  cases place with
  | start =>
      have hanswer : (lowerText part).isPrefixOf (lowerText whole) =
          decide (Place.start.Has (lowerText whole) (lowerText part)) := by
        rw [Bool.eq_iff_iff, decide_eq_true_iff]
        exact List.isPrefixOf_iff_prefix
      rw [Place.function, call_startsWith, hanswer]
  | finish =>
      have hanswer : (lowerText part).isSuffixOf (lowerText whole) =
          decide (Place.finish.Has (lowerText whole) (lowerText part)) := by
        rw [Bool.eq_iff_iff, decide_eq_true_iff]
        exact List.isSuffixOf_iff_suffix
      rw [Place.function, call_endsWith, hanswer]
  | anywhere =>
      have hcontained : isContained whole part = isWithin (lowerText part) (lowerText whole) := by
        obtain ⟨v, ty⟩ := whole
        cases v with
        | array => exact absurd rfl hwhole
        | _ => rfl
      have hanswer : isWithin (lowerText part) (lowerText whole) =
          decide (Place.anywhere.Has (lowerText whole) (lowerText part)) := by
        rw [Bool.eq_iff_iff, decide_eq_true_iff]
        exact isWithin_iff_isInfix _ _
      rw [Place.function, call_contains, hcontained, hanswer]

/-- Whether the function for a place says that the first result has the second there. -/
def Finds (place : Place) (whole part : TypedValue) : Prop :=
  ∀ next, registry.call place.function [whole, part] next = .ok (.ofBool true, next)

theorem finds_iff (place : Place) (hwhole : whole.value.tag ≠ .array) (part : TypedValue) :
    Finds place whole part ↔ place.Has (lowerText whole) (lowerText part) := by
  rw [Finds, call_place place hwhole]
  by_cases h : place.Has (lowerText whole) (lowerText part)
  · rw [decide_eq_true h]
    exact ⟨fun _ => h, fun _ _ => rfl⟩
  · rw [decide_eq_false h]
    refine ⟨fun hcall => ?_, fun hhas => absurd hhas h⟩
    cases hcall 0

/-- The lower-case form of a result's string form, as a result. -/
def lowered (r : TypedValue) : TypedValue := .ofString (lowercase r.toText)

theorem lowerText_lowered (r : TypedValue) : lowerText (lowered r) = lowerText r := by
  rw [lowerText, lowerText]
  exact congrArg String.toList (lowercase_lowercase r.toText)

theorem lowerText_eq_iff (a b : TypedValue) :
    lowerText a = lowerText b ↔ lowercase a.toText = lowercase b.toText := String.toList_inj

/-- Searching is coherent, as long as nothing is searched for in an array. What is found at the
start or at the end is found somewhere, and at each place finding is a partial order: everything
is found in itself, what is found in something found is found, and two results are found in each
other exactly when they have the same lower-case form. A result can be replaced by its lower-case
form, on either side, because a text in lower case does not change in lower case. -/
theorem search_coherent {a b : TypedValue} (ha : a.value.tag ≠ .array)
    (hb : b.value.tag ≠ .array) (c : TypedValue) :
    (Finds .start a b ∨ Finds .finish a b → Finds .anywhere a b) ∧
    (∀ place : Place,
      (∃ answer, ∀ next,
        registry.call place.function [a, b] next = .ok (.ofBool answer, next)) ∧
      Finds place a a ∧
      (Finds place a b → Finds place b c → Finds place a c) ∧
      (Finds place a b ∧ Finds place b a ↔ lowercase a.toText = lowercase b.toText) ∧
      registry.call place.function [lowered a, b] = registry.call place.function [a, b] ∧
      registry.call place.function [a, lowered b] = registry.call place.function [a, b]) ∧
    ∀ text, lowercase (lowercase text) = lowercase text := by
  have hlowered : (lowered a).value.tag ≠ .array := fun h => by cases h
  refine ⟨?_, fun place => ⟨⟨_, fun next => congrFun (call_place place ha b) next⟩, ?_, ?_, ?_,
    ?_, ?_⟩, lowercase_lowercase⟩
  · rw [finds_iff .start ha, finds_iff .finish ha, finds_iff .anywhere ha]
    rintro (hfound | hfound)
    · exact Place.has_anywhere _ hfound
    · exact Place.has_anywhere _ hfound
  · exact (finds_iff place ha a).mpr (place.has_refl _)
  · rw [finds_iff place ha, finds_iff place hb, finds_iff place ha]
    exact place.has_trans
  · rw [finds_iff place ha, finds_iff place hb, ← lowerText_eq_iff]
    constructor
    · rintro ⟨hab, hba⟩
      exact place.has_antisymm hab hba
    · intro heq
      rw [heq]
      exact ⟨place.has_refl _, place.has_refl _⟩
  · rw [call_place place hlowered, call_place place ha, lowerText_lowered]
  · rw [call_place place ha, call_place place ha, lowerText_lowered]

/-- The capital sigmas at the ends of these texts all become final ones. So the last is found at
the end of the first because it is found at the end of the second. -/
theorem search_coherent_sigma :
    (Value.string "ΟΔΟΣ").tag ≠ .array ∧ (Value.string "ΔΟΣ").tag ≠ .array ∧
    Finds .finish (.ofString "ΟΔΟΣ") (.ofString "ΔΟΣ") ∧
    Finds .finish (.ofString "ΔΟΣ") (.ofString "οΣ") ∧
    Finds .finish (.ofString "ΟΔΟΣ") (.ofString "οΣ") ∧
    Finds .anywhere (.ofString "ΟΔΟΣ") (.ofString "ΔΟΣ") ∧
    lowercase (lowercase "ΟΔΟΣ") = lowercase "ΟΔΟΣ" := by
  have hfirst : Finds .finish (.ofString "ΟΔΟΣ") (.ofString "ΔΟΣ") :=
    (finds_iff .finish (by decide) _).mpr (by decide +kernel)
  have hsecond : Finds .finish (.ofString "ΔΟΣ") (.ofString "οΣ") :=
    (finds_iff .finish (by decide) _).mpr (by decide +kernel)
  obtain ⟨hsomewhere, hplaces, hlower⟩ := search_coherent (a := .ofString "ΟΔΟΣ")
    (b := .ofString "ΔΟΣ") (by decide) (by decide) (.ofString "οΣ")
  obtain ⟨-, -, htrans, -⟩ := hplaces .finish
  exact ⟨by decide, by decide, hfirst, hsecond, htrans hfirst hsecond, hsomewhere (.inr hfirst),
    hlower _⟩

end Builtin

end WorkflowExpr
