import Mathlib.Algebra.Order.Floor.Semifield
import Mathlib.Data.Rat.Floor
import WorkflowExpr.Proofs.Evaluation
import WorkflowExpr.Proofs.Steps
import WorkflowExpr.Proofs.WholeNumbers

/-!
Index access from end to end. What an index finds depends on the exact value of the number that
it is as a number: what is no number finds nothing, a number in front of the first item or behind
the last is an error, and every other number finds the item at its whole part. The whole part can
be cut to a machine word, since no array is so long that this would bring an item within reach.
-/

namespace WorkflowExpr

namespace Binary64

open Magnitude

variable {x : Binary64} {q : ℚ} {k : Nat}

/-- The exact value of a finite number. -/
def toRat? : Binary64 → Option ℚ
  | .finite negative m => some ((if negative then -(m.units : ℚ) else m.units) / unitsPerOne)
  | _ => none

/-- The whole part of a number as a machine word. What is no number and what lies below zero
become zero, and what lies above the greatest word becomes the greatest word. -/
def toWord : Binary64 → UInt64
  | .nan => 0
  | .infinite negative => if negative then 0 else .ofNat (2 ^ 64 - 1)
  | .finite negative m =>
      if negative then 0 else .ofNat (min (m.units / unitsPerOne) (2 ^ 64 - 1))

theorem isNaN_of_toRat? (h : x.toRat? = some q) : x.isNaN = false := by
  cases x with
  | nan => cases h
  | infinite negative => rfl
  | finite negative m => rfl

theorem isNegative_of_toRat? (h : x.toRat? = some q) : x.isNegative = decide (q < 0) := by
  cases x with
  | nan => cases h
  | infinite negative => cases h
  | finite negative m =>
      obtain rfl := Option.some.inj h
      rw [isNegative_of_position? rfl, decide_eq_decide, div_lt_iff₀ cast_unitsPerOne_pos, zero_mul]
      cases negative with
      | false => exact_mod_cast Iff.rfl
      | true => simp

/-- A number from zero up has the whole part of its exact value. -/
theorem floorAbs?_of_toRat? (h : x.toRat? = some q) (hq : 0 ≤ q) :
    x.floorAbs? = some ⌊q⌋₊ := by
  cases x with
  | nan => cases h
  | infinite negative => cases h
  | finite negative m =>
      obtain rfl := Option.some.inj h
      cases negative with
      | false => simp [floorAbs?, Nat.floor_div_eq_div]
      | true =>
          have hzero : m.units = 0 := by simpa [le_div_iff₀ cast_unitsPerOne_pos] using hq
          simp [floorAbs?, hzero]

/-- Where a number is not below zero, only what lies beyond every array is cut off. -/
theorem getElem?_toWord {α : Type} {items : List α} (hlength : items.length < 2 ^ 63)
    (hneg : x.isNegative = false) (hfloor : x.floorAbs? = some k) :
    items[x.toWord.toNat]? = items[k]? := by
  cases x with
  | nan => cases hfloor
  | infinite negative => cases hfloor
  | finite negative m =>
      obtain rfl := Option.some.inj hfloor
      cases negative with
      | true =>
          have hplace : (finite true m).position? = some (-(m.units : Int)) := rfl
          have hzero : m.units = 0 := by simpa [isNegative_of_position? hplace] using hneg
          simp [toWord, hzero]
      | false =>
          have hword : (toWord (.finite false m)).toNat =
              min (m.units / unitsPerOne) (2 ^ 64 - 1) := by
            apply UInt64.toNat_ofNat_of_lt'
            have := min_le_right (m.units / unitsPerOne) (2 ^ 64 - 1)
            simp only [UInt64.size]
            omega
          rw [hword]
          rcases Nat.lt_or_ge (m.units / unitsPerOne) (2 ^ 63) with hless | hmore
          · rw [min_eq_left (by omega)]
          · rw [List.getElem?_eq_none (by omega), List.getElem?_eq_none (by omega)]

end Binary64

namespace Eval

variable {items : List Value} {index : Binary64} {next : Identity} {q : ℚ}

/-- The item at a position whose whole part is cut to a machine word. -/
def itemAtWord (items : List Value) (index : Binary64) : Evaluation TypedValue :=
  if index.isNaN then return .unknown
  else if index.isNegative || index.isInfinite then throw (.indexOutOfRange index items.length)
  else
    match items[index.toWord.toNat]? with
    | some v => return .ofValue v
    | none => throw (.indexOutOfRange index items.length)

/-- Cutting the position to a machine word changes nothing. -/
theorem itemAtWord_eq_itemAt (hlength : items.length < 2 ^ 63) (index : Binary64) :
    itemAtWord items index = itemAt items index := by
  cases hneg : index.isNegative with
  | true => simp [itemAtWord, itemAt, hneg]
  | false =>
      cases hfloor : index.floorAbs? with
      | some k =>
          have hfinite : index.isInfinite = false := by
            cases index <;> simp [Binary64.isInfinite, Binary64.floorAbs?] at hfloor ⊢
          have hword := Binary64.getElem?_toWord hlength hneg hfloor
          cases hitem : items[k]? with
          | none => simp [itemAtWord, itemAt, hneg, hfinite, hfloor, hword, hitem]
          | some item => simp [itemAtWord, itemAt, hneg, hfinite, hfloor, hword, hitem]
      | none =>
          cases index with
          | nan => simp [itemAtWord, itemAt, Binary64.isNaN]
          | infinite negative =>
              simp [itemAtWord, itemAt, hneg, Binary64.isInfinite, Binary64.floorAbs?]
          | finite negative m => cases hfloor

end Eval

section Main

open Eval Evaluation

variable {registry : Registry} {ctx : Context} {operand position : Expr} {r : TypedValue}
  {next mid : Identity}

/-- In an array, index access looks for the item at the index as a number. -/
theorem Expr.eval_index_of_array {i : TypedValue} {identity last : Identity} {items : List Value}
    (span : Span) (hoperand : operand.eval registry ctx next = .ok (r, mid))
    (hvalue : r.value = .array identity items)
    (hposition : position.eval registry ctx mid = .ok (i, last)) :
    (Expr.index span operand position).eval registry ctx next =
      itemAt items i.value.toNumber last := by
  have hitems : indexable r.value mid = .ok (items, mid) :=
    indexable_eq_ok.mpr ⟨identity, hvalue, rfl⟩
  rw [Expr.eval, bind_of_ok hoperand, bind_of_ok hitems, bind_of_ok hposition]

/-- What index access comes to. In an array it is decided by the exact value of the index as a
number. The error names the number and the length, and the item is the one in the array itself,
with the type of its kind. What is no array cannot be indexed, whatever the index would be. -/
theorem Expr.eval_index_access (span : Span) (position : Expr)
    (hoperand : operand.eval registry ctx next = .ok (r, mid)) :
    (∀ identity items i last, r.value = .array identity items → items.length < 2 ^ 63 →
      position.eval registry ctx mid = .ok (i, last) →
      (i.value.toNumber = .nan →
        (Expr.index span operand position).eval registry ctx next = .ok (.unknown, last)) ∧
      (i.value.toNumber.isInfinite = true →
        (Expr.index span operand position).eval registry ctx next =
          .error (.indexOutOfRange i.value.toNumber items.length)) ∧
      (∀ q, i.value.toNumber.toRat? = some q →
        (q < 0 ∨ items.length ≤ ⌊q⌋₊ →
          (Expr.index span operand position).eval registry ctx next =
            .error (.indexOutOfRange i.value.toNumber items.length)) ∧
        (0 ≤ q → ∀ hfloor : ⌊q⌋₊ < items.length,
          (Expr.index span operand position).eval registry ctx next =
            .ok (.ofValue items[⌊q⌋₊], last))) ∧
      (Expr.index span operand position).eval registry ctx next =
        itemAtWord items i.value.toNumber last) ∧
    (r.value.tag ≠ .array →
      (Expr.index span operand position).eval registry ctx next =
        .error (.typeMismatch (.index r.value.tag))) := by
  constructor
  · intro identity items i last hvalue hlength hposition
    rw [eval_index_of_array span hoperand hvalue hposition, itemAtWord_eq_itemAt hlength]
    generalize i.value.toNumber = number
    refine ⟨?_, ?_, fun q hq => ⟨?_, ?_⟩, rfl⟩
    · rintro rfl
      rfl
    · intro hinfinite
      cases number with
      | infinite negative => exact itemAt_eq_error.mpr ⟨rfl, .inr (.inl rfl), rfl⟩
      | _ => cases hinfinite
    · intro houtside
      have hnegative := Binary64.isNegative_of_toRat? hq
      have hnan := Binary64.isNaN_of_toRat? hq
      rcases lt_or_ge q 0 with hless | hnonneg
      · rw [decide_eq_true hless] at hnegative
        exact itemAt_eq_error.mpr ⟨hnan, .inl hnegative, rfl⟩
      · have hbeyond := houtside.resolve_left (not_lt.mpr hnonneg)
        have hfloor := Binary64.floorAbs?_of_toRat? hq hnonneg
        exact itemAt_eq_error.mpr ⟨hnan, .inr (.inr ⟨_, hfloor, hbeyond⟩), rfl⟩
    · intro hnonneg hless
      have hnegative := Binary64.isNegative_of_toRat? hq
      rw [decide_eq_false (not_lt.mpr hnonneg)] at hnegative
      have hfloor := Binary64.floorAbs?_of_toRat? hq hnonneg
      apply itemAt_eq_ok.mpr
      exact ⟨.inr ⟨Binary64.isNaN_of_toRat? hq, hnegative, _, _, hfloor,
        List.getElem?_eq_getElem hless, rfl⟩, rfl⟩
  · intro htag
    rw [Expr.eval, bind_of_ok hoperand, bind_of_error (indexable_eq_error.mpr ⟨htag, rfl⟩)]

def nestedContext : Context := .ofList [("x", .array 0 [.bool true, .array 1 []])]

/-- An index text between two whole numbers, and an index that would fail itself. -/
theorem Expr.eval_index_access_text :
    (Expr.index .nowhere (.var .nowhere "x") (.string .nowhere " 15e-1")).eval
        Builtin.registry nestedContext 2 = .ok (.ofValue (.array 1 []), 2) ∧
      (Expr.index .nowhere (.null .nowhere) (.var .nowhere "y")).eval
        Builtin.registry nestedContext 2 = .error (.typeMismatch (.index .null)) := by
  have hread : Numeral.read " 15e-1" = .finite false ⟨3 <<< 1073, by decide +kernel⟩ := by
    decide +kernel
  have hvalue : (TypedValue.ofString " 15e-1").value.toNumber.toRat? = some (3 / 2) := by
    change (Numeral.read " 15e-1").toRat? = _
    have hunits : (3 <<< 1073) * 2 = 3 * Magnitude.unitsPerOne := by decide +kernel
    rw [hread, Binary64.toRat?, if_neg Bool.false_ne_true, Option.some.injEq, div_eq_div_iff]
    · exact_mod_cast hunits
    · exact Nat.cast_ne_zero.mpr Magnitude.unitsPerOne_pos.ne'
    · norm_num
  have hfloor : ⌊(3 / 2 : ℚ)⌋₊ = 1 := by norm_num [Nat.floor_eq_iff]
  have hoperand : (Expr.var .nowhere "x").eval Builtin.registry nestedContext 2 =
      .ok (.ofValue (.array 0 [.bool true, .array 1 []]), 2) := rfl
  have hposition : (Expr.string .nowhere " 15e-1").eval Builtin.registry nestedContext 2 =
      .ok (.ofString " 15e-1", 2) := rfl
  obtain ⟨hitems, -⟩ := eval_index_access .nowhere (.string .nowhere " 15e-1") hoperand
  obtain ⟨-, -, hfinite, -⟩ := hitems 0 _ _ 2 rfl (by decide) hposition
  have hitem := (hfinite _ hvalue).2 (by norm_num) (by rw [hfloor]; decide)
  simp only [hfloor] at hitem
  have hnull : (Expr.null .nowhere).eval Builtin.registry nestedContext 2 =
      .ok (.ofValue .null, 2) := rfl
  exact ⟨hitem, (eval_index_access .nowhere (.var .nowhere "y") hnull).2 (by decide)⟩

end Main

end WorkflowExpr
