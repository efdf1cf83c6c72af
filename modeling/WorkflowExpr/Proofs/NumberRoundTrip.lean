import WorkflowExpr.Proofs.Json.Floats
import WorkflowExpr.Proofs.Json.Values

/-!
Numbers written as JSON text and read back. The text of a finite number is always read as a
finite number of the same sign, fewer than six units in the last place away. Whole numbers up
to the largest that is written as one and numbers with a short decimal come back as they were;
others need not, since the reader scales by powers of ten that are rounded themselves.
-/

namespace WorkflowExpr

open Magnitude

namespace Binary64

/-- The whole number that a finite number is, from its magnitude. -/
theorem whole?_finite (negative : Bool) (m : Magnitude) :
    (∃ w ≤ maxWhole, m.units = w * unitsPerOne ∧
      whole? (.finite negative m) = some (if negative then -(w : Int) else w)) ∨
    ((∀ w ≤ maxWhole, m.units ≠ w * unitsPerOne) ∧ whole? (.finite negative m) = none) := by
  rw [whole?]
  by_cases hwhole : m.units % unitsPerOne = 0 ∧ m.units / unitsPerOne ≤ maxWhole
  · left
    refine ⟨_, hwhole.2, (Nat.div_mul_cancel (Nat.dvd_of_mod_eq_zero hwhole.1)).symm, ?_⟩
    rw [if_pos hwhole]
  · right
    refine ⟨fun w hw hunits => hwhole ?_, if_neg hwhole⟩
    rw [hunits, Nat.mul_mod_left, Nat.mul_div_cancel _ Magnitude.unitsPerOne_pos]
    exact ⟨rfl, hw⟩

/-- A whole number is made from its magnitude, zero without a sign. -/
theorem ofInt_signed {m : Magnitude} {w : Nat} (negative : Bool)
    (hunits : m.units = w * unitsPerOne) :
    ofInt (if negative then -(w : Int) else w) = .finite (negative && m.units != 0) m := by
  have hround : roundUnits (w * unitsPerOne) 1 = m.units := by
    rw [← hunits, roundUnits_of_representable m.representable]
  have hzero : m.units = 0 ↔ w = 0 := by
    rw [hunits, Nat.mul_eq_zero]
    have := Magnitude.unitsPerOne_pos
    omega
  have habs : (if negative then -(w : Int) else w).natAbs = w := by cases negative <;> simp
  have hsign : decide ((if negative then -(w : Int) else w) < 0) =
      (negative && m.units != 0) := by
    cases negative with
    | false => simp
    | true =>
        rw [Bool.eq_iff_iff, if_pos rfl, decide_eq_true_eq, Bool.true_and, bne_iff_ne, ne_eq, hzero]
        omega
  rw [ofInt, ofRatio, habs, hsign]
  exact ofUnits_eq_finite _ hround

end Binary64

/-- The text of a whole number in the range of integers is read as the number itself. -/
theorem Json.parse_intText {i : Int} (hleast : -2 ^ 63 ≤ i) (hgreatest : i < 2 ^ 64) :
    Json.parse (String.ofList (Json.intText i)) = .ok (.int i) := by
  have hends : Ends [] := by rintro c ⟨⟩
  have hread : Reader.readValue Reader.depthLimit (intText i ++ []) = _ :=
    readValue_intText hleast hgreatest hends
  rw [List.append_nil] at hread
  exact parse_of_readValue hread

namespace Value

/-- The text of a whole number holds the whole number. -/
theorem parse_wholeText {n : Binary64} {i : Int} (hwhole : n.whole? = some i)
    (hi : i.natAbs ≤ Binary64.maxWhole) :
    Json.parse (String.ofList (numberText n)) = .ok (.int i) := by
  rw [Binary64.maxWhole_eq] at hi
  rw [numberText, hwhole]
  apply Json.parse_intText <;> omega

/-- The text of a finite number that is not whole holds a finite number near it. -/
theorem parse_fractionText {negative : Bool} {m : Magnitude} (hm : 0 < m.units)
    (hnone : ∀ w ≤ Binary64.maxWhole, m.units ≠ w * unitsPerOne)
    (hwhole : (Binary64.finite negative m).whole? = none) :
    ∃ y : Magnitude,
      Json.parse (String.ofList (numberText (.finite negative m))) =
        .ok (.float (.finite negative y)) ∧
      |(y.units : ℚ) - m.units| < 6 * 2 ^ spareBits m.units ∧
      ((m.shortest .toEven).digits ≤ Binary64.maxWhole →
        (m.shortest .toEven).exponent.natAbs ≤ Json.Number.exactPower → y = m) := by
  have hends : Json.Ends [] := by rintro c ⟨⟩
  obtain ⟨y, hread, hnear, hexact⟩ :=
    Json.readValue_floatText negative Json.Reader.depthLimit hm hends
  rw [List.append_nil] at hread
  refine ⟨y, ?_, hnear, hexact hnone⟩
  rw [numberText, hwhole]
  exact Json.parse_of_readValue hread

/-- The text of a finite number holds a finite number near it. -/
theorem parse_numberText (negative : Bool) (m : Magnitude) :
    ∃ json, ∃ y : Magnitude,
      Json.parse (String.ofList (numberText (.finite negative m))) = .ok json ∧
      ofJson json = pure (.number (.finite (negative && m.units != 0) y)) ∧
      |(y.units : ℚ) - m.units| < 6 * 2 ^ spareBits m.units ∧
      ((Binary64.finite negative m).IsWhole ∨ (m.shortest .toEven).digits ≤ Binary64.maxWhole ∧
        (m.shortest .toEven).exponent.natAbs ≤ Json.Number.exactPower → y = m) := by
  rcases Binary64.whole?_finite negative m with ⟨w, hw, hunits, hwhole⟩ | ⟨hnone, hwhole⟩
  · refine ⟨_, m, parse_wholeText hwhole ?_, ?_, ?_, fun _ => rfl⟩
    · split <;> omega
    · rw [ofJson, Binary64.ofInt_signed negative hunits]
    · rw [sub_self, abs_zero]
      positivity
  · have hm : 0 < m.units := by
      rw [Nat.pos_iff_ne_zero]
      intro hzero
      exact hnone 0 (Nat.zero_le _) (by rw [hzero, Nat.zero_mul])
    have hsign : (negative && m.units != 0) = negative := by
      rw [bne_iff_ne.mpr hm.ne', Bool.and_true]
    obtain ⟨y, hparse, hnear, hexact⟩ := parse_fractionText hm hnone hwhole
    refine ⟨_, y, hparse, by rw [ofJson, hsign], hnear, ?_⟩
    rintro (⟨i, hi, hposition⟩ | ⟨hdigits, hexponent⟩)
    · rw [Binary64.whole?_eq_some hi hposition] at hwhole
      cases hwhole
    · exact hexact hdigits hexponent

end Value

namespace Builtin

/-- The JSON text of a finite number is read as a finite number near it, and as the number
itself if that is whole or has a short decimal. -/
theorem json_number_near (negative : Bool) (m : Magnitude) (ty : Ty) :
    ∃ text, ∃ y : Magnitude,
      (∀ next, registry.call "toJSON" [⟨.number (.finite negative m), ty⟩] next =
        .ok (.ofString text, next)) ∧
      (∀ next, registry.call "fromJSON" [.ofString text] next =
        .ok (.ofNumber (.finite (negative && m.units != 0) y), next)) ∧
      |(y.units : ℤ) - m.units| < 6 * 2 ^ spareBits m.units ∧
      ((Binary64.finite negative m).IsWhole ∨ (m.shortest .toEven).digits ≤ Binary64.maxWhole ∧
        (m.shortest .toEven).exponent.natAbs ≤ Json.Number.exactPower → y = m) := by
  obtain ⟨json, y, hparse, hjson, hnear, hexact⟩ := Value.parse_numberText negative m
  refine ⟨_, y, fun next => call_toJson _ next, fun next => ?_, ?_, hexact⟩
  · rw [Value.toJsonText, Value.write, call_fromJson, hparse]
    simp only [hjson]
    rfl
  · exact_mod_cast hnear

def tenth : Magnitude := ⟨7205759403792794 <<< 1018, by decide +kernel⟩

theorem json_number_near_tenth :
    ∃ text,
      registry.call "toJSON" [.ofNumber (.finite true tenth)] 0 = .ok (.ofString text, 0) ∧
      registry.call "fromJSON" [.ofString text] 0 = .ok (.ofNumber (.finite true tenth), 0) := by
  have hshortest : tenth.shortest .toEven = ⟨1, -1⟩ := by
    have hfound : (List.range' 1 16).findSome? (tenth.neighbour? .toEven) = some ⟨1, -1⟩ := by
      decide +kernel
    rw [shortest, hfound, Option.map_some, Option.getD_some, Decimal.normalize,
      if_neg (by decide)]
  have hsign : (true && tenth.units != 0) = true := by decide +kernel
  obtain ⟨text, y, hwrite, hread, -, hexact⟩ := json_number_near true tenth .number
  rw [hshortest] at hexact
  rw [hexact (.inr ⟨by decide, by decide⟩), hsign] at hread
  exact ⟨text, hwrite 0, hread 0⟩

/-- The magnitude of the number nearest to `1e-23`. -/
def powerMinus23 : Magnitude := ⟨6805647338418769 <<< 945, by decide +kernel⟩

def afterPowerMinus23 : Magnitude := ⟨6805647338418770 <<< 945, by decide +kernel⟩

/-- Where a power of ten is rounded, the reader can miss the number. The one nearest to `1e-23`
is written so, and reading the text as JSON gives the number after it. A comparison reads the
same text as the number itself. -/
theorem not_json_number_round_trip :
    registry.call "toJSON" [.ofNumber (.finite false powerMinus23)] 0 =
      .ok (.ofString "1e-23", 0) ∧
    registry.call "fromJSON" [.ofString "1e-23"] 0 =
      .ok (.ofNumber (.finite false afterPowerMinus23), 0) ∧
    Binary64.numericEq (.finite false afterPowerMinus23) (.finite false powerMinus23) = false ∧
    TypedValue.equal (.ofString "1e-23") (.ofNumber (.finite false powerMinus23)) = true := by
  have hshortest : powerMinus23.shortest .toEven = ⟨1, -23⟩ := by
    have hfound : (List.range' 1 16).findSome? (powerMinus23.neighbour? .toEven) =
        some ⟨10, -24⟩ := by
      decide +kernel
    rw [shortest, hfound, Option.map_some, Option.getD_some, Decimal.normalize,
      if_pos (by decide), Decimal.normalize, if_neg (by decide)]
    rfl
  have htext : Json.floatText (.finite false powerMinus23) = "1e-23".toList := by
    rw [Json.floatText, if_neg (by decide +kernel), hshortest]
    decide +kernel
  have hwhole : (Binary64.finite false powerMinus23).whole? = none := by decide +kernel
  have hscale : Json.Number.scale? 1 (-23) = some (.finite false afterPowerMinus23) := by
    rw [Json.Number.scale?, if_pos (by decide), Json.Number.divPower, if_pos (by decide)]
    decide +kernel
  have hread : Json.Number.readUnsigned false (Json.floatLayout.write ⟨1, -23⟩ ++ []) =
      .ok (.float (.finite false afterPowerMinus23), []) := by
    rw [Json.readUnsigned_write (by decide) (by decide) (by decide) (by rintro c ⟨⟩),
      Json.gathered, if_neg (by decide), Json.Number.ofParts, hscale]
    rfl
  have hparse : Json.parse "1e-23" = .ok (.float (.finite false afterPowerMinus23)) :=
    Json.parse_of_readValue ((Json.readValue_digit (by decide)).trans hread)
  refine ⟨?_, ?_, by decide +kernel, by decide +kernel⟩
  · rw [call_toJson, Value.toJsonText, TypedValue.ofNumber, TypedValue.ofValue, Value.write,
      Value.numberText, hwhole, htext]
    rfl
  · rw [call_fromJson, hparse]
    rfl

end Builtin

end WorkflowExpr
