import WorkflowExpr.Proofs.Json.Decimals
import WorkflowExpr.Proofs.Json.Documents
import WorkflowExpr.Proofs.Json.ExactScaling

/-!
Numbers with a fraction or an exponent, read back from their JSON text. Reading always ends on
a finite number of the same sign, within six units in the last place, and on the number itself
where its shortest decimal is short.
-/

namespace WorkflowExpr.Json

open Magnitude Number

section Gathered

variable {d : Decimal}

/-- What is gathered from a text has the value of the decimal, and hardly more digits. -/
theorem gathered_spec (hpos : 0 < d.digits) (hdigits : d.digits ≤ 10 ^ 17) :
    (gathered d).value = d.value ∧ 0 < (gathered d).digits ∧ (gathered d).digits ≤ 10 ^ 17 := by
  by_cases hfilled : 0 ≤ d.exponent ∧ d.leadingExponent < 16
  · rw [gathered, if_pos hfilled]
    have hexponent : d.exponent.toNat = d.exponent.natAbs := by omega
    refine ⟨?_, Nat.mul_pos hpos (Nat.pow_pos (by decide)), ?_⟩
    · rw [Decimal.value_of_nonneg hfilled.1, Decimal.value, hexponent, zpow_neg_one, pow_succ]
      push_cast
      field_simp
    · rw [Decimal.leadingExponent] at hfilled
      exact (Decimal.mul_pow_lt (by omega)).le
  · rw [gathered, if_neg hfilled]
    exact ⟨rfl, hpos, hdigits⟩

end Gathered

/-- The three greatest magnitudes. -/
def nearLimit (i : Fin 3) : Magnitude :=
  ⟨(2 ^ 53 - 1 - i.val) <<< 2045, by revert i; decide +kernel⟩

/-- The shortest decimals of the three greatest magnitudes. -/
theorem shortest_nearLimit (i : Fin 3) :
    (nearLimit i).shortest .toEven = ⟨17976931348623157 - 2 * i.val, 292⟩ := by
  have hlong : ∀ i : Fin 3,
      (List.range' 1 16).findSome? ((nearLimit i).neighbour? .toEven) = none := by decide +kernel
  have hstep : ∀ i : Fin 3,
      Decimal.quotientExponent (nearLimit i).units unitsPerOne - (17 : Nat) + 1 = 292 := by
    decide +kernel
  have hround : ∀ i : Fin 3,
      roundQuotient .toEven (Decimal.stepsOf (nearLimit i).units unitsPerOne 292).1
        (Decimal.stepsOf (nearLimit i).units unitsPerOne 292).2 =
      17976931348623157 - 2 * i.val := by decide +kernel
  have hlast : ∀ i : Fin 3, (17976931348623157 - 2 * i.val) % 10 ≠ 0 := by decide
  rw [shortest, hlong, Option.map_none, Option.getD_none, Decimal.roundSignificant, hstep]
  rw [hround, Decimal.normalize, if_neg (fun h => hlast i h.2)]

/-- Next to the limit a magnitude is one of the last multiples of the spacing there. -/
theorem exists_units_eq_shift {m : Magnitude} (h : (limit : ℚ) * (1 - 4 * roundoff) < m.units) :
    ∃ k, 2 ^ 53 - 4 < k ∧ k < 2 ^ 53 ∧ m.units = k <<< 2045 := by
  -- The exponent stays a variable, as the power itself is too large to compute with.
  obtain ⟨e, he⟩ : ∃ e : Nat, e = 2045 := exists_eq
  have hlimit : limit = 2 ^ 53 <<< e := by
    subst he
    decide +kernel
  rw [Nat.shiftLeft_eq] at hlimit
  have hless := m.representable.2
  have hmore : (2 ^ 53 - 4) * 2 ^ e < m.units := by
    rw [hlimit, roundoff] at h
    push_cast at h
    have hcast : (2 ^ 53 - 4 : ℚ) * 2 ^ e < m.units := by linarith
    norm_num at hcast ⊢
    exact_mod_cast hcast
  rw [hlimit] at hless
  have hspare : e ≤ spareBits m.units := by
    have hbelow : 2 ^ (52 + 0) * 2 ^ e ≤ m.units :=
      (Nat.mul_le_mul_right (2 ^ e) (by decide)).trans hmore.le
    exact (Nat.zero_add e ▸ le_spareBits_mul e (Nat.le_refl _)).trans
      (spareBits_le_spareBits hbelow)
  obtain ⟨k, hk⟩ := Nat.dvd_trans (Nat.pow_dvd_pow 2 hspare) m.two_pow_spareBits_dvd
  rw [hk, Nat.mul_comm (2 ^ e)] at hless hmore
  refine ⟨k, Nat.lt_of_mul_lt_mul_right hmore, Nat.lt_of_mul_lt_mul_right hless, ?_⟩
  rw [hk, ← he, Nat.shiftLeft_eq, Nat.mul_comm]

theorem units_nearLimit (i : Fin 3) : (nearLimit i).units = (2 ^ 53 - 1 - i.val) <<< 2045 := rfl

/-- A magnitude beyond all others but three is one of the three. -/
theorem eq_nearLimit {m : Magnitude} (h : (limit : ℚ) * (1 - 4 * roundoff) < m.units) :
    ∃ i, m = nearLimit i := by
  obtain ⟨k, hmore, hless, hunits⟩ := exists_units_eq_shift h
  have hback : 2 ^ 53 - 1 - (2 ^ 53 - 1 - k) = k := by omega
  refine ⟨⟨2 ^ 53 - 1 - k, by omega⟩, eq_of_units ?_⟩
  rw [units_nearLimit, hback, hunits]

/-- The three greatest magnitudes do not turn out too large. -/
theorem scale?_nearLimit (i : Fin 3) :
    scale? (gathered ((nearLimit i).shortest .toEven)).digits
      (gathered ((nearLimit i).shortest .toEven)).exponent ≠ none := by
  rw [shortest_nearLimit]
  revert i
  decide +kernel

section Shortest

variable {m : Magnitude}

/-- The text of a magnitude is scaled to a number near the magnitude, and never to none. -/
theorem scale?_shortest (hm : 0 < m.units) :
    ∃ y : Magnitude, scale? (gathered (m.shortest .toEven)).digits
        (gathered (m.shortest .toEven)).exponent = some (.finite false y) ∧
      |(y.units : ℚ) - m.units| < 6 * 2 ^ spareBits m.units := by
  obtain ⟨hreads, hpos, hdigits, -⟩ := shortest_spec .toEven hm
  obtain ⟨hvalue, hpos', hdigits'⟩ := gathered_spec hpos hdigits
  have hreads' := (readsBack_congr (m := m) hvalue).trans hreads
  obtain ⟨hleast, hgreatest⟩ := exponent_of_readsBack hm hpos' hdigits' hreads'
  by_cases hneg : (gathered (m.shortest .toEven)).exponent < 0
  · exact scale?_of_neg hpos' hdigits' hreads' hneg hleast
  · rcases scale?_of_nonneg hpos' hdigits' hreads' (Int.not_lt.mp hneg) hgreatest with
      hnear | ⟨hnone, hlarge⟩
    · exact hnear
    · obtain ⟨i, rfl⟩ := eq_nearLimit hlarge
      exact absurd hnone (scale?_nearLimit i)

/-- An even number of fifty-four bits exists. -/
theorem representable_even {w : Nat} (heven : w % 2 = 0) (h : w < 10 ^ 16) :
    Representable (w * unitsPerOne) := by
  constructor
  · have hhalf : w * unitsPerOne = (w / 2) <<< (1 + fractionBits) := by
      rw [unitsPerOne_eq, Nat.shiftLeft_eq, Nat.pow_add, ← Nat.mul_assoc, Nat.pow_one,
        Nat.div_mul_cancel (Nat.dvd_of_mod_eq_zero heven)]
    rw [hhalf]
    refine shift_spareBits_dvd ?_
    rw [Nat.one_shiftLeft]
    omega
  · have hfits : 10 ^ 16 * unitsPerOne < limit := by decide +kernel
    exact Nat.lt_trans (Nat.mul_lt_mul_of_pos_right h unitsPerOne_pos) hfits

/-- Zeros that fill up the digits of a whole number do no harm. -/
theorem scale?_filled {d : Decimal} (hreads : m.readsBack d = true)
    (hwhole : ∀ n ≤ Binary64.maxWhole, m.units ≠ n * unitsPerOne)
    (hdigits : d.digits ≤ Binary64.maxWhole) (hexponent : 0 ≤ d.exponent)
    (hleading : d.leadingExponent < 16) :
    scale? (d.digits * 10 ^ (d.exponent.toNat + 1)) (-1) = some (.finite false m) := by
  have hexponent' : d.exponent.natAbs = d.exponent.toNat := by omega
  have hvalue : ((d.digits * 10 ^ d.exponent.toNat * unitsPerOne : Nat) : ℚ) / (1 : Nat) =
      d.value * unitsPerOne := by
    rw [Decimal.value_of_nonneg hexponent, hexponent']
    push_cast
    ring
  have hround := (readsBack_iff Nat.one_pos hvalue).mp hreads
  have hless : d.digits * 10 ^ d.exponent.toNat < 10 ^ 16 := by
    rw [Decimal.leadingExponent] at hleading
    exact Decimal.mul_pow_lt (by omega)
  have hlow : 2 ^ 53 < d.digits * 10 ^ d.exponent.toNat := by
    by_contra hmore
    have hle : d.digits * 10 ^ d.exponent.toNat ≤ Binary64.maxWhole := by
      rw [Binary64.maxWhole_eq]
      omega
    rw [roundUnits_of_representable (Binary64.representable_whole hle)] at hround
    exact hwhole _ hle hround.symm
  have heven : d.digits * 10 ^ d.exponent.toNat % 2 = 0 := by
    rcases Nat.eq_zero_or_pos d.exponent.toNat with hzero | hsome
    · rw [hzero, Nat.pow_zero, Nat.mul_one] at hlow
      rw [Binary64.maxWhole_eq] at hdigits
      omega
    · obtain ⟨k, hk⟩ := Nat.exists_eq_succ_of_ne_zero hsome.ne'
      rw [hk, Nat.pow_succ, ← Nat.mul_assoc]
      omega
  rw [roundUnits_of_representable (representable_even heven hless)] at hround
  rw [Nat.pow_succ, ← Nat.mul_assoc]
  exact scale?_of_filled hlow hless hround.symm

/-- The text of a magnitude with a short decimal is scaled to the magnitude. -/
theorem scale?_shortest_of_short (hm : 0 < m.units)
    (hwhole : ∀ n ≤ Binary64.maxWhole, m.units ≠ n * unitsPerOne)
    (hdigits : (m.shortest .toEven).digits ≤ Binary64.maxWhole)
    (hexponent : (m.shortest .toEven).exponent.natAbs ≤ exactPower) :
    scale? (gathered (m.shortest .toEven)).digits (gathered (m.shortest .toEven)).exponent =
      some (.finite false m) := by
  obtain ⟨hreads, -⟩ := shortest_spec .toEven hm
  rw [gathered]
  split
  case isTrue hfilled => exact scale?_filled hreads hwhole hdigits hfilled.1 hfilled.2
  case isFalse => exact scale?_of_short hdigits hexponent hreads

end Shortest

/-! The text as a whole. -/

/-- The text of a decimal starts with a digit. -/
theorem write_head (d : Decimal) :
    ∃ c text, floatLayout.write d = c :: text ∧ c.isDigit = true := by
  obtain ⟨c, digits, heq, hc⟩ := toDigits_head d.digits
  rw [DecimalLayout.write, heq]
  split
  · rw [DecimalLayout.writePlain]
    split
    · exact ⟨'0', _, rfl, rfl⟩
    · rw [DecimalLayout.pointed]
      split
      · exact ⟨c, _, rfl, hc⟩
      · exact ⟨c, _, rfl, hc⟩
  · exact ⟨c, _, rfl, hc⟩

/-- A number that is not whole is read as a number of the same sign near it, and as itself
where its shortest decimal is short. -/
theorem readValue_floatText {m : Magnitude} (negative : Bool) (room : Nat) {rest : List Char}
    (hm : 0 < m.units) (hends : Ends rest) :
    ∃ y : Magnitude,
      Reader.readValue room (floatText (.finite negative m) ++ rest) =
        .ok (.float (.finite negative y), rest) ∧
      |(y.units : ℚ) - m.units| < 6 * 2 ^ spareBits m.units ∧
      ((∀ n ≤ Binary64.maxWhole, m.units ≠ n * unitsPerOne) →
        (m.shortest .toEven).digits ≤ Binary64.maxWhole →
        (m.shortest .toEven).exponent.natAbs ≤ exactPower → y = m) := by
  obtain ⟨y, hscale, hnear⟩ := scale?_shortest hm
  obtain ⟨hreads, hpos, hdigits, -⟩ := shortest_spec .toEven hm
  have hleading : (m.shortest .toEven).leadingExponent.natAbs ≤ exponentLimit := by
    obtain ⟨hleast, hgreatest⟩ := exponent_of_readsBack hm hpos hdigits hreads
    have hcount : Decimal.digitCount (m.shortest .toEven).digits ≤ 18 := by
      rw [Decimal.digitCount_le_iff]
      exact Nat.lt_of_le_of_lt hdigits (by decide)
    have hlimit : 400 ≤ exponentLimit := by decide
    rw [Decimal.leadingExponent]
    omega
  have hread : readUnsigned negative (floatLayout.write (m.shortest .toEven) ++ rest) =
      .ok (.float (.finite negative y), rest) := by
    rw [readUnsigned_write hpos hdigits hleading hends, ofParts, hscale]
    cases negative <;> rfl
  refine ⟨y, ?_, hnear, ?_⟩
  · rw [floatText, if_neg hm.ne']
    cases negative with
    | false =>
        obtain ⟨c, text, heq, hdigit⟩ := write_head (m.shortest .toEven)
        rw [if_neg (by decide), List.nil_append]
        rw [heq] at hread ⊢
        rw [List.cons_append, readValue_digit hdigit, ← List.cons_append, hread]
    | true =>
        rw [if_pos rfl, List.append_assoc, List.singleton_append, readValue_minus, hread]
  · intro hwhole hshort hexponent
    rw [scale?_shortest_of_short hm hwhole hshort hexponent] at hscale
    cases hscale
    rfl

/-- A text is what its only value is. -/
theorem parse_of_readValue {text : List Char} {json : Json}
    (h : Reader.readValue Reader.depthLimit text = .ok (json, [])) :
    parse (String.ofList text) = .ok json := by
  rw [parse, String.toList_ofList, Reader.readText, h]
  rfl

end WorkflowExpr.Json
