import WorkflowExpr.Proofs.Calls
import WorkflowExpr.Proofs.NumberRoundTrip
import WorkflowExpr.Proofs.Numeral.Stability

/-!
Whole numbers and their decimal texts. A whole number stands in an expression as a literal, in a
text that is read as a number, and in a JSON text; all three mean the number nearest to it. Up to
fifteen digits it is also written with all of its digits, in an expression as in JSON, so that
nothing of it is lost in either.
-/

namespace WorkflowExpr

open Magnitude

variable {i : Int} {n : Nat} {x : Binary64} {d : Decimal} {m : Magnitude}

theorem toString_eq_intText (i : Int) : toString i = String.ofList (Json.intText i) := by
  apply String.toList_injective
  rw [String.toList_ofList]
  cases i with
  | ofNat n => simp [toString, Int.repr, Json.intText]
  | negSucc n => simp [toString, Int.repr, Json.intText]

theorem intText_eq_signed (i : Int) :
    Json.intText i = Numeral.signText (i < 0) ++ Nat.toDigits 10 i.natAbs := by
  simp [Json.intText, Numeral.signText]

section Reading

/-- The text of a whole number is read as the number nearest to it. -/
theorem Numeral.read_toString (i : Int) : read (toString i) = .ofInt i := by
  have htext : DecimalText (i < 0) ⟨i.natAbs, 0⟩ (Json.intText i) := by
    rw [intText_eq_signed]
    exact decimalText_toDigits (signText_signText _) i.natAbs
  have hread := htext.isNearest_read
  rw [← toString_eq_intText, Decimal.value, zpow_zero, mul_one] at hread
  exact Binary64.isNearest_natCast_iff.mp hread

/-- So is its JSON text, if the integer is in range. -/
theorem Builtin.call_fromJson_toString (hleast : -2 ^ 63 ≤ i) (hgreatest : i < 2 ^ 64)
    (next : Identity) :
    registry.call "fromJSON" [.ofString (toString i)] next = .ok (.ofNumber (.ofInt i), next) := by
  rw [call_fromJson, toString_eq_intText, Json.parse_intText hleast hgreatest]
  rfl

end Reading

section Digits

/-- Each power of ten in a number is a zero at the end of its digits. -/
theorem toDigits_mul_pow (hpos : 0 < n) (k : Nat) :
    Nat.toDigits 10 (n * 10 ^ k) = Nat.toDigits 10 n ++ List.replicate k '0' := by
  induction k with
  | zero => simp
  | succ k ih =>
      have hmul : 0 < n * 10 ^ k := by positivity
      have hnext : n * 10 ^ (k + 1) = 10 * (n * 10 ^ k) + 0 := by ring
      rw [hnext, ← Nat.toDigits_append_toDigits (by decide) hmul (by decide), ih,
        List.append_assoc, List.replicate_succ']
      rfl

/-- A whole number of at most fifteen digits is its own rounding to so many. -/
theorem Decimal.value_roundSignificant_whole (hpos : 0 < n) (hless : n < 10 ^ 15) :
    (roundSignificant .toEven 15 (n * unitsPerOne) unitsPerOne).value = n := by
  have hvalue : value ⟨n, 0⟩ = n := by simp [value]
  have hcount : digitCount n ≤ 15 := (digitCount_le_iff n 15).mpr hless
  have hleading : leadingExponent ⟨n, 0⟩ = digitCount n - 15 + (14 : Nat) := by
    simp only [leadingExponent]
    omega
  have hspec := leadingExponent_spec (d := ⟨n, 0⟩) hpos
  rw [hvalue, hleading] at hspec
  have hexact : RoundsToDigits (14 + 1) n ⟨n, 0⟩ := by
    apply RoundsToDigits.of_lt (k := n * 10 ^ (15 - digitCount n)) hspec
    · have hsteps : ((15 - digitCount n : Nat) : Int) + (digitCount n - 15) = 0 := by omega
      push_cast
      rw [hvalue, mul_assoc, ← zpow_natCast, ← zpow_add₀ (by norm_num), hsteps, zpow_zero, mul_one]
    · rw [hvalue, sub_self, abs_zero]
      positivity
  have hunits : 0 < n * unitsPerOne := Nat.mul_pos hpos unitsPerOne_pos
  have hrounds := roundsToDigits_roundSignificant hunits unitsPerOne_pos 14
  rw [Nat.cast_mul, mul_div_cancel_right₀ _ cast_unitsPerOne_pos.ne'] at hrounds
  rw [← hvalue]
  exact hrounds.value_eq hexact

/-- A decimal whose value is whole and has at most fifteen digits is written with all of them. -/
theorem Numeral.write_of_value_eq (hlast : d.digits % 10 ≠ 0) (hvalue : d.value = n)
    (hless : n < 10 ^ 15) : generalLayout.write d = Nat.toDigits 10 n := by
  have hwhole : Decimal.value ⟨n, 0⟩ = n := by simp [Decimal.value]
  obtain ⟨k, hk⟩ : ∃ k : Nat, d.exponent = k :=
    Int.eq_ofNat_of_zero_le (Decimal.exponent_le_of_value_eq hlast (hwhole.trans hvalue.symm))
  have hn : d.digits * 10 ^ k = n := by
    rw [Decimal.value, hk, zpow_natCast] at hvalue
    exact_mod_cast hvalue
  have hpos : 0 < d.digits := by omega
  have hdigits := toDigits_mul_pow hpos k
  have hlength : (Nat.toDigits 10 n).length ≤ 15 :=
    (Nat.length_toDigits_le_iff (by decide) (by decide)).mpr hless
  have hsome : 0 < (Nat.toDigits 10 d.digits).length := Nat.length_toDigits_pos
  rw [hn] at hdigits
  rw [hdigits, List.length_append, List.length_replicate] at hlength
  rw [hdigits, DecimalLayout.write, hk]
  generalize Nat.toDigits 10 d.digits = digits at *
  have hplain : generalLayout.isPlain (k + digits.length - 1) = true := by
    rw [generalLayout, Bool.and_eq_true, decide_eq_true_eq, decide_eq_true_eq, significantDigits]
    omega
  have hplace : (k + digits.length - 1 : Int).toNat + 1 = digits.length + k := by omega
  rw [if_pos hplain, DecimalLayout.writePlain, if_neg (by omega), DecimalLayout.pointed, hplace,
    if_pos (by omega), Nat.add_sub_cancel_left]
  simp [generalLayout]

end Digits

section Writing

/-- What a number is that a whole number can be read off. -/
theorem Binary64.eq_finite_of_whole? (h : x.whole? = some i) :
    ∃ negative m, x = .finite negative m ∧ m.units = i.natAbs * unitsPerOne ∧
      (0 < i.natAbs → negative = decide (i < 0)) := by
  cases x with
  | nan => cases h
  | infinite negative => cases h
  | finite negative m =>
      rcases whole?_finite negative m with ⟨w, -, hunits, hwhole⟩ | ⟨-, hwhole⟩
      · obtain rfl := Option.some.inj (hwhole.symm.trans h)
        have habs : (if negative then -(w : Int) else w).natAbs = w := by cases negative <;> simp
        refine ⟨negative, m, rfl, habs.symm ▸ hunits, fun hpos => ?_⟩
        rw [habs] at hpos
        cases negative <;> simp [hpos]
      · rw [hwhole] at h
        cases h

/-- A whole number of at most fifteen digits is written with all of them. -/
theorem Numeral.write_of_whole? (h : x.whole? = some i) (hless : i.natAbs < 10 ^ 15) :
    write x = toString i := by
  obtain ⟨negative, m, rfl, hunits, hsign⟩ := Binary64.eq_finite_of_whole? h
  rw [toString_eq_intText, intText_eq_signed, write, hunits]
  rcases Nat.eq_zero_or_pos i.natAbs with hzero | hpos
  · obtain rfl := Int.natAbs_eq_zero.mp hzero
    simp [signText]
  · have hmul : 0 < i.natAbs * unitsPerOne := Nat.mul_pos hpos unitsPerOne_pos
    obtain ⟨-, -, -, hlast⟩ := Decimal.roundSignificant_spec .toEven hmul unitsPerOne_pos 14
    have hvalue := Decimal.value_roundSignificant_whole hpos hless
    rw [if_neg hmul.ne', hsign hpos]
    simp only [significantDigits, write_of_value_eq hlast hvalue hless]

end Writing

section Main

/-- A whole number survives every text boundary. Its literal is the number nearest to it, and so
is its text when it is read, in an expression as in JSON. A number that is whole and has at most
fifteen digits is written as their text on both sides, and the text is read as just that whole
number again. -/
theorem integer_texts :
    (∀ (value : Int64) (registry : Registry) (ctx : Context) (span : Span) (next : Identity),
      ∃ y, Binary64.IsNearest (value.toInt < 0) value.toInt.natAbs y ∧
        (Expr.int span value).eval registry ctx next = .ok (.ofNumber y, next) ∧
        Numeral.read (toString value.toInt) = y ∧
        Builtin.registry.call "fromJSON" [.ofString (toString value.toInt)] next =
          .ok (.ofNumber y, next)) ∧
    ∀ (i : Int) (x : Binary64), i.natAbs < 10 ^ 15 → x.position? = some (i * unitsPerOne) →
      Numeral.write x = toString i ∧
      (∀ ty next, Builtin.registry.call "toJSON" [⟨.number x, ty⟩] next =
        .ok (.ofString (toString i), next)) ∧
      ∃ y : Binary64, y.position? = some (i * unitsPerOne) ∧ Numeral.read (toString i) = y ∧
        ∀ next, Builtin.registry.call "fromJSON" [.ofString (toString i)] next =
          .ok (.ofNumber y, next) := by
  refine ⟨fun value registry ctx span next => ?_, fun i x hless hposition => ?_⟩
  · refine ⟨.ofInt value.toInt, Binary64.isNearest_natCast_iff.mpr rfl, rfl,
      Numeral.read_toString _, ?_⟩
    apply Builtin.call_fromJson_toString
    · exact value.le_toInt
    · exact value.toInt_lt.trans (by decide)
  · have hwhole : i.natAbs ≤ Binary64.maxWhole := by
      rw [Binary64.maxWhole_eq]
      omega
    have hx := Binary64.whole?_eq_some hwhole hposition
    refine ⟨Numeral.write_of_whole? hx hless, fun ty next => ?_,
      .ofInt i, Binary64.position?_ofInt hwhole, Numeral.read_toString i, ?_⟩
    · rw [Builtin.call_toJson, Value.toJsonText, Value.write, Value.numberText, hx,
        toString_eq_intText]
    · apply Builtin.call_fromJson_toString <;> omega

/-- The first whole number that is not a number itself, and one with all fifteen digits. -/
theorem integer_texts_at_bounds :
    (∃ y, (Expr.int ⟨0, 16⟩ 9007199254740993).eval Builtin.registry .empty 0 =
        .ok (.ofNumber y, 0) ∧
      Builtin.registry.call "fromJSON" [.ofString "9007199254740993"] 0 =
        .ok (.ofNumber y, 0)) ∧
    Numeral.write (.ofInt (-999999999999999)) = "-999999999999999" ∧
    Builtin.registry.call "toJSON" [.ofNumber (.ofInt (-999999999999999))] 0 =
      .ok (.ofString "-999999999999999", 0) := by
  obtain ⟨y, -, hliteral, -, hjson⟩ :=
    integer_texts.1 9007199254740993 Builtin.registry .empty ⟨0, 16⟩ 0
  obtain ⟨hwrite, hcall, -⟩ :=
    integer_texts.2 (-999999999999999) (.ofInt (-999999999999999)) (by decide)
      (Binary64.position?_ofInt (by decide))
  exact ⟨⟨y, hliteral, hjson⟩, hwrite, hcall .number 0⟩

end Main

end WorkflowExpr
