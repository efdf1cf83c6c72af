import Mathlib.Tactic.IntervalCases
import WorkflowExpr.Proofs.Binary64.Operations
import WorkflowExpr.Proofs.Numeral.Grammar

/-!
Whole numbers in hexadecimal and octal digits. The reader takes in digit after digit and rounds
each time. As long as the digits so far write less than fifty-three bits nothing is lost. The
first digits that need more are rounded once, and every digit after them counts as a zero: it
is less than half the spacing of what has been read. So the number read is the nearest one to
the digits with zeros in place of the late ones, but not always to the digits themselves.
-/

namespace WorkflowExpr.Numeral

open Magnitude

/-- A character is the digit of a value, a letter in either case. -/
def IsDigitOf (base : Nat) (c : Char) (value : Nat) : Prop :=
  value < base ∧ (c = Nat.digitChar value ∨ c = (Nat.digitChar value).toUpper)

inductive Mark : Nat → List Char → Prop where
  | hexadecimal : Mark 16 ['0', 'x']
  | capital : Mark 16 ['0', 'X']
  | octal : Mark 8 ['0', 'o']

/-- A mark and one or more digits of its base, which have these values. -/
inductive RadixText (base : Nat) (values : List Nat) : List Char → Prop where
  | mk {mark digits : List Char} (marked : Mark base mark) (nonempty : digits ≠ [])
      (digital : List.Forall₂ (IsDigitOf base) digits values) :
      RadixText base values (mark ++ digits)

/-- The number that digits write, the first of them counting most. -/
def ofValues (base : Nat) (values : List Nat) : Nat :=
  values.foldl (fun n value => base * n + value) 0

variable {base bits value n u : Nat} {values : List Nat} {mark digits text : List Char}

section Digits

/-- A character in a range is told by its place there. -/
theorem exists_place {first last c : Char} (h : first ≤ c ∧ c ≤ last) :
    ∃ k ≤ last.toNat - first.toNat,
      c.toNat - first.toNat = k ∧ c = Char.ofNat (first.toNat + k) := by
  have hlow : first.toNat ≤ c.toNat := UInt32.le_iff_toNat_le.mp h.1
  have hhigh : c.toNat ≤ last.toNat := UInt32.le_iff_toNat_le.mp h.2
  exact ⟨_, Nat.sub_le_sub_right hhigh _, rfl, by rw [Nat.add_sub_cancel' hlow, Char.ofNat_toNat]⟩

/-- The digits of a value are the one or two characters that are read as the value. -/
theorem digitValue?_eq_some (hbase : base ≤ 16) {c : Char} :
    Text.digitValue? base c = some value ↔ IsDigitOf base c value := by
  have hdecimal : ∀ k ≤ 9, Char.ofNat ('0'.toNat + k) = Nat.digitChar k := by decide
  have hsmall : ∀ k ≤ 5, Char.ofNat ('a'.toNat + k) = Nat.digitChar (k + 10) := by decide
  have hcapital : ∀ k ≤ 5, Char.ofNat ('A'.toNat + k) = (Nat.digitChar (k + 10)).toUpper := by
    decide
  rw [Text.digitValue?, Option.filter_eq_some_iff, IsDigitOf, and_comm, decide_eq_true_eq]
  refine and_congr_right fun hlt => ?_
  constructor
  · intro h
    split at h
    · rename_i hdigit
      have hrange : '0' ≤ c ∧ c ≤ '9' := by simpa [Char.isDigit, Char.le_def] using hdigit
      obtain ⟨k, hk, hplace, rfl⟩ := exists_place hrange
      rw [Option.some.injEq, Text.decimalValue, hplace] at h
      exact .inl (h ▸ hdecimal k hk)
    · split at h
      · rename_i hrange
        obtain ⟨k, hk, hplace, rfl⟩ := exists_place hrange
        rw [Option.some.injEq, hplace] at h
        exact .inl (h ▸ hsmall k hk)
      · split at h
        · rename_i hrange
          obtain ⟨k, hk, hplace, rfl⟩ := exists_place hrange
          rw [Option.some.injEq, hplace] at h
          exact .inr (h ▸ hcapital k hk)
        · cases h
  · have hvalue : value < 16 := Nat.lt_of_lt_of_le hlt hbase
    clear hlt
    interval_cases value <;> rintro (rfl | rfl) <;> rfl

/-- A run of digits is read value by value. -/
theorem mapM_digitValue?_eq_some (hbase : base ≤ 16) :
    digits.mapM (Text.digitValue? base) = some values ↔
      List.Forall₂ (IsDigitOf base) digits values := by
  induction digits generalizing values with
  | nil =>
      rw [List.mapM_nil, List.forall₂_nil_left_iff]
      exact ⟨fun h => (Option.some.inj h).symm, fun h => congrArg some h.symm⟩
  | cons c digits ih =>
      rw [List.mapM_cons, List.forall₂_cons_left_iff]
      constructor
      · intro h
        obtain ⟨value, hvalue, h⟩ := Option.bind_eq_some_iff.mp h
        obtain ⟨rest, hrest, h⟩ := Option.bind_eq_some_iff.mp h
        exact ⟨value, rest, (digitValue?_eq_some hbase).mp hvalue, ih.mp hrest,
          (Option.some.inj h).symm⟩
      · rintro ⟨value, rest, hvalue, hrest, rfl⟩
        rw [(digitValue?_eq_some hbase).mpr hvalue, ih.mpr hrest]
        rfl

theorem lt_of_digits (h : List.Forall₂ (IsDigitOf base) digits values) :
    ∀ v ∈ values, v < base := by
  induction h with
  | nil => exact List.forall_mem_nil _
  | cons hdigit _ ih => exact List.forall_mem_cons.mpr ⟨hdigit.1, ih⟩

theorem Mark.exists_bits (h : Mark base mark) : ∃ bits ≤ 4, base = 2 ^ bits := by
  cases h with
  | hexadecimal => exact ⟨4, by decide, by decide⟩
  | capital => exact ⟨4, by decide, by decide⟩
  | octal => exact ⟨3, by decide, by decide⟩

theorem Mark.le_sixteen (h : Mark base mark) : base ≤ 16 := by
  cases h <;> decide

theorem readMarked?_append (h : Mark base mark) (digits : List Char) :
    readMarked? (mark ++ digits) = readRadix? base digits := by
  cases h <;> rfl

/-- Marked digits are read by taking them in one after the other. -/
theorem readMarked?_of_radixText (h : RadixText base values text) :
    readMarked? text = some (values.foldl (pushDigit base) .zero) := by
  cases h with
  | mk hmark hne hdigits =>
      rw [readMarked?_append hmark, readRadix?, if_neg hne,
        (mapM_digitValue?_eq_some hmark.le_sixteen).mpr hdigits]
      rfl

/-- Only marked digits are read so. -/
theorem exists_radixText {number : Binary64} (h : readMarked? text = some number) :
    ∃ base values, RadixText base values text := by
  have hradix : ∀ {base mark digits}, Mark base mark → readRadix? base digits = some number →
      ∃ base values, RadixText base values (mark ++ digits) := by
    intro base mark digits hmark hread
    rw [readRadix?] at hread
    split at hread
    · cases hread
    · rename_i hne
      obtain ⟨values, hvalues, -⟩ := Option.map_eq_some_iff.mp hread
      exact ⟨base, values, .mk hmark hne ((mapM_digitValue?_eq_some hmark.le_sixteen).mp hvalues)⟩
  unfold readMarked? at h
  split at h
  · exact hradix .hexadecimal h
  · exact hradix .capital h
  · exact hradix .octal h
  · cases h

/-- Marked digits are no decimal. -/
theorem readDecimal?_of_radixText (h : RadixText base values text) : readDecimal? text = none := by
  cases h with
  | mk hmark =>
      cases hmark <;>
        simp [readDecimal?, readSign, List.span, List.span.loop, readFraction, readExponent?,
          Char.isDigit]

end Digits

section Rounding

/-- The unit count after one more digit, were the range without end. -/
def pushUnits (bits units value : Nat) : Nat :=
  roundUnits (units * 2 ^ bits + value * unitsPerOne) 1

theorem pushDigit_ofUnits (hu : Fits u) (hbits : bits ≤ 4) (hvalue : value < 2 ^ bits) :
    pushDigit (2 ^ bits) (.ofUnits false u 1) value =
      .ofUnits false (pushUnits bits u value) 1 := by
  have hsmall : value ≤ Binary64.maxWhole := by
    have hpower : 2 ^ bits ≤ 2 ^ 4 := Nat.pow_le_pow_right two_pos hbits
    rw [Binary64.maxWhole_eq]
    omega
  rw [pushDigit, Binary64.ofUnits_mul_two_pow hu (by omega),
    Binary64.ofUnits_add_ofNat (hu.mul_two_pow bits) hsmall]
  exact Binary64.ofUnits_congr (roundUnits_of_fits (fits_roundUnits _ _)).symm

/-- Taking in digits is a matter of unit counts without end, cut off once at the end. -/
theorem foldl_pushDigit (hu : Fits u) (hbits : bits ≤ 4) (hvalues : ∀ v ∈ values, v < 2 ^ bits) :
    values.foldl (pushDigit (2 ^ bits)) (.ofUnits false u 1) =
      .ofUnits false (values.foldl (pushUnits bits) u) 1 := by
  induction values generalizing u with
  | nil => rfl
  | cons value values ih =>
      rw [List.forall_mem_cons] at hvalues
      rw [List.foldl_cons, List.foldl_cons, pushDigit_ofUnits hu hbits hvalues.1]
      exact ih (fits_roundUnits _ _) hvalues.2

/-- From fifty-three bits on the spacing is more than two digits. -/
theorem two_mul_le_spacing (hlarge : 2 ^ 53 * unitsPerOne ≤ u) {k : Nat} (hk : u * 2 ^ bits ≤ k) :
    2 * (2 ^ bits * unitsPerOne) ≤ 2 ^ spareBits k := by
  have hpower : 2 * (2 ^ bits * unitsPerOne) = 2 ^ (1 + bits + fractionBits) := by
    rw [unitsPerOne_eq, Nat.pow_add, Nat.pow_add, Nat.pow_one, Nat.mul_assoc]
  have hmany : 2 ^ (52 + (1 + bits + fractionBits)) ≤ k := by
    rw [Nat.pow_add, ← hpower]
    calc 2 ^ 52 * (2 * (2 ^ bits * unitsPerOne)) = 2 ^ 53 * unitsPerOne * 2 ^ bits := by ring
      _ ≤ u * 2 ^ bits := Nat.mul_le_mul_right _ hlarge
      _ ≤ k := hk
  have hle := le_spareBits_mul 0 hmany
  rw [Nat.pow_zero, Nat.mul_one, Nat.add_zero] at hle
  rw [hpower]
  exact Nat.pow_le_pow_right two_pos hle

/-- Digits that come late are less than half the spacing. -/
theorem pushUnits_of_large (hu : Fits u) (hlarge : 2 ^ 53 * unitsPerOne ≤ u)
    (hvalue : value < 2 ^ bits) : pushUnits bits u value = u * 2 ^ bits := by
  have hfits := hu.mul_two_pow bits
  have hless : value * unitsPerOne < 2 ^ bits * unitsPerOne :=
    Nat.mul_lt_mul_of_pos_right hvalue unitsPerOne_pos
  refine roundUnits_eq_of_dvd Nat.one_pos ?_ ?_
  · refine Nat.dvd_trans (Nat.pow_dvd_pow 2 (spareBits_div_le Nat.one_pos hfits ?_)) hfits
    have hroom := two_mul_le_spacing hlarge (Nat.le_refl (u * 2 ^ bits))
    rw [Nat.cast_one, div_one]
    exact_mod_cast (by omega :
      u * 2 ^ bits + value * unitsPerOne < u * 2 ^ bits + 2 ^ spareBits (u * 2 ^ bits))
  · have hroom := two_mul_le_spacing hlarge (Nat.le_add_right (u * 2 ^ bits) (value * unitsPerOne))
    have hhalf : ((value * unitsPerOne : Nat) : ℚ) * 2 <
        2 ^ spareBits (u * 2 ^ bits + value * unitsPerOne) := by
      exact_mod_cast (by omega :
        value * unitsPerOne * 2 < 2 ^ spareBits (u * 2 ^ bits + value * unitsPerOne))
    rw [Nat.div_one, Nat.cast_one, div_one, Nat.cast_add, sub_add_cancel_left, abs_neg,
      Nat.abs_cast, lt_div_iff₀ two_pos]
    exact hhalf

/-- Once there are fifty-three bits, each further digit only moves the number up. -/
theorem foldl_pushUnits_of_large (hu : Fits u) (hlarge : 2 ^ 53 * unitsPerOne ≤ u)
    (hvalues : ∀ v ∈ values, v < 2 ^ bits) :
    values.foldl (pushUnits bits) u = u * (2 ^ bits) ^ values.length := by
  induction values generalizing u with
  | nil => rw [List.foldl_nil, List.length_nil, Nat.pow_zero, Nat.mul_one]
  | cons value values ih =>
      rw [List.forall_mem_cons] at hvalues
      have hmore : 2 ^ 53 * unitsPerOne ≤ u * 2 ^ bits :=
        Nat.le_trans hlarge (Nat.le_mul_of_pos_right u (Nat.two_pow_pos bits))
      rw [List.foldl_cons, pushUnits_of_large hu hlarge hvalues.1,
        ih (hu.mul_two_pow bits) hmore hvalues.2, List.length_cons, Nat.pow_succ', Nat.mul_assoc]

theorem pushUnits_whole (bits n value : Nat) :
    pushUnits bits (n * unitsPerOne) value =
      roundUnits ((2 ^ bits * n + value) * unitsPerOne) 1 := by
  rw [pushUnits]
  congr 1
  ring

theorem roundUnits_whole (hn : n < 2 ^ 53) : roundUnits (n * unitsPerOne) 1 = n * unitsPerOne := by
  refine roundUnits_of_fits ?_
  rw [unitsPerOne_eq]
  exact fits_mul_two_pow hn.le _

/-- Large whole numbers keep their place among the powers of two and scale without a further
rounding. -/
theorem roundUnits_large (hn : 2 ^ 53 ≤ n) (e : Nat) :
    2 ^ 53 * unitsPerOne ≤ roundUnits (n * unitsPerOne) 1 ∧
      roundUnits (n * unitsPerOne) 1 * 2 ^ e = roundUnits (n * 2 ^ e * unitsPerOne) 1 := by
  constructor
  · have hle := Nat.mul_le_mul_right unitsPerOne hn
    have hpower : 2 ^ 53 * unitsPerOne = 2 ^ (53 + fractionBits) := by
      rw [unitsPerOne_eq, Nat.pow_add]
    rw [hpower] at hle ⊢
    exact two_pow_le_roundUnits (by rwa [Nat.div_one])
  · have hmany : 2 ^ 52 ≤ n * unitsPerOne :=
      Nat.le_trans (by omega) (Nat.le_mul_of_pos_right n unitsPerOne_pos)
    rw [← roundUnits_mul_two_pow hmany, Nat.mul_right_comm]

/-- The digits are those that are kept, up to the first that go beyond fifty-three bits, and
those that count as zeros. -/
theorem exists_kept (hn : n < 2 ^ 53) (hvalues : ∀ v ∈ values, v < 2 ^ bits) :
    ∃ kept dropped k, values = kept ++ dropped ∧
      kept.foldl (fun n value => 2 ^ bits * n + value) n = k ∧ k < 2 ^ bits * 2 ^ 53 ∧
      (dropped ≠ [] → 2 ^ 53 ≤ k) ∧
      values.foldl (pushUnits bits) (n * unitsPerOne) =
        roundUnits (k * (2 ^ bits) ^ dropped.length * unitsPerOne) 1 := by
  induction values generalizing n with
  | nil =>
      have hroom : n < 2 ^ bits * 2 ^ 53 :=
        Nat.lt_of_lt_of_le hn (Nat.le_mul_of_pos_left _ (Nat.two_pow_pos bits))
      refine ⟨[], [], n, rfl, rfl, hroom, fun h => absurd rfl h, ?_⟩
      rw [List.foldl_nil, List.length_nil, Nat.pow_zero, Nat.mul_one, roundUnits_whole hn]
  | cons value values ih =>
      rw [List.forall_mem_cons] at hvalues
      have hroom : 2 ^ bits * n + value < 2 ^ bits * 2 ^ 53 := by
        have hle := Nat.mul_le_mul_left (2 ^ bits) (Nat.succ_le_of_lt hn)
        rw [Nat.mul_succ] at hle
        omega
      rw [List.foldl_cons, pushUnits_whole]
      rcases Nat.lt_or_ge (2 ^ bits * n + value) (2 ^ 53) with hless | hmore
      · obtain ⟨kept, dropped, k, rfl, hkept, hk, hdropped, hunits⟩ := ih hless hvalues.2
        refine ⟨value :: kept, dropped, k, rfl, hkept, hk, hdropped, ?_⟩
        rw [roundUnits_whole hless, hunits]
      · obtain ⟨hlarge, -⟩ := roundUnits_large hmore 0
        refine ⟨[value], values, _, rfl, rfl, hroom, fun _ => hmore, ?_⟩
        rw [foldl_pushUnits_of_large (fits_roundUnits _ _) hlarge hvalues.2, List.foldl_cons,
          List.foldl_nil, ← Nat.pow_mul, (roundUnits_large hmore _).2]

end Rounding

/-- What digits are read as: the nearest number to the digits that are kept, with zeros for the
others. -/
theorem isNearest_foldl_pushDigit (h : RadixText base values text) :
    ∃ kept dropped, values = kept ++ dropped ∧ ofValues base kept < base * 2 ^ 53 ∧
      (dropped ≠ [] → 2 ^ 53 ≤ ofValues base kept) ∧
      Binary64.IsNearest false ((ofValues base kept * base ^ dropped.length : Nat) : ℚ)
        (values.foldl (pushDigit base) .zero) := by
  cases h with
  | @mk mark digits hmark hne hdigits =>
      have hvalues := lt_of_digits hdigits
      obtain ⟨bits, hbits, rfl⟩ := hmark.exists_bits
      obtain ⟨kept, dropped, k, hsplit, rfl, hk, hdropped, hunits⟩ :=
        exists_kept (Nat.two_pow_pos 53) hvalues
      refine ⟨kept, dropped, hsplit, hk, hdropped, ?_⟩
      have hzero : Binary64.zero = .ofUnits false 0 1 := (Binary64.ofUnits_units false .zero).symm
      have hrounds := roundsTo_roundUnits
        (ofValues (2 ^ bits) kept * (2 ^ bits) ^ dropped.length * unitsPerOne) Nat.one_pos
      rw [Nat.zero_mul] at hunits
      rw [hzero, foldl_pushDigit (Nat.dvd_zero _) hbits hvalues, hunits]
      refine .of_units (u := _) ?_ (roundUnits_of_fits (fits_roundUnits _ _))
      rwa [Nat.cast_one, div_one, Nat.cast_mul _ unitsPerOne] at hrounds

end WorkflowExpr.Numeral
