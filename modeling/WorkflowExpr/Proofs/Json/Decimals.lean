import WorkflowExpr.Proofs.Decimal.Shortest
import WorkflowExpr.Proofs.Json.Numbers

/-!
Decimals read back. Whether its text has an exponent or only a fraction, the reader gathers
from a decimal the digits and the exponent that it was written from; only where zeros fill up
the digits of a whole number does it gather these zeros too, and the one after the point.
-/

namespace WorkflowExpr.Json

namespace Number

variable {negative : Bool} {significand : Nat} {exponent : Int} {digits rest : List Char}

theorem readFractionDigits_cons (c : Char) (text : List Char) :
    readFractionDigits negative significand exponent (c :: text) =
      if c.isDigit then
        match pushDigit? significand c with
        | some significand => readFractionDigits negative significand (exponent - 1) text
        | none => readTail negative significand exponent (text.dropWhile Char.isDigit)
      else readTail negative significand exponent (c :: text) := (rfl)

/-- The digits of a fraction gather behind those before the point, and each counts. -/
theorem readFractionDigits_append (hdigits : ∀ c ∈ digits, c.isDigit = true)
    (hstop : startsDigit rest = false)
    (hlimit : Nat.ofDigitChars 10 digits significand < significandLimit) :
    readFractionDigits negative significand exponent (digits ++ rest) =
      readTail negative (Nat.ofDigitChars 10 digits significand) (exponent - digits.length)
        rest := by
  induction digits generalizing significand exponent with
  | nil =>
      rw [List.nil_append, Nat.ofDigitChars_nil, List.length_nil, Int.natCast_zero, Int.sub_zero]
      cases rest with
      | nil => rfl
      | cons c rest =>
          rw [readFractionDigits_cons, if_neg (not_isDigit_of_startsDigit hstop)]
  | cons c digits ih =>
      have hcount : exponent - ((c :: digits).length : Nat) = exponent - 1 - digits.length := by
        rw [List.length_cons]
        omega
      rw [List.cons_append, readFractionDigits_cons, if_pos (hdigits c List.mem_cons_self),
        pushDigit?_of_lt digits hlimit, hcount]
      exact ih (fun d hd => hdigits d (List.mem_cons_of_mem c hd)) hlimit

/-- A point with digits behind it. -/
theorem readWholeTail_point (hne : digits ≠ []) (hdigits : ∀ c ∈ digits, c.isDigit = true)
    (hstop : startsDigit rest = false)
    (hlimit : Nat.ofDigitChars 10 digits significand < significandLimit) :
    readWholeTail negative significand ('.' :: digits ++ rest) =
      readTail negative (Nat.ofDigitChars 10 digits significand) (-(digits.length : Int)) rest := by
  obtain ⟨c, more, rfl⟩ := List.exists_cons_of_ne_nil hne
  have hread : readFractionDigits negative significand 0 (c :: more ++ rest) = _ :=
    readFractionDigits_append hdigits hstop hlimit
  rw [Int.zero_sub] at hread
  rw [List.cons_append, readWholeTail, List.cons_append, readFraction,
    if_pos (hdigits c List.mem_cons_self), ← List.cons_append, hread]

theorem readTail_of_ends (h : Ends rest) :
    readTail negative significand exponent rest = ofParts negative significand exponent rest := by
  cases rest with
  | nil => rfl
  | cons c rest =>
      obtain ⟨-, -, hlower, hupper⟩ := h c rfl
      rw [readTail]
      · rintro text ⟨⟩
        exact hlower rfl
      · rintro text ⟨⟩
        exact hupper rfl

theorem readExponentDigits_append {k : Nat} (hdigits : ∀ c ∈ digits, c.isDigit = true)
    (hstop : startsDigit rest = false) (hlimit : Nat.ofDigitChars 10 digits k ≤ exponentLimit) :
    readExponentDigits k (digits ++ rest) = .ok (Nat.ofDigitChars 10 digits k, rest) := by
  induction digits generalizing k with
  | nil =>
      cases rest with
      | nil => rfl
      | cons c rest =>
          rw [List.nil_append, readExponentDigits, if_neg (not_isDigit_of_startsDigit hstop),
            Nat.ofDigitChars_nil]
  | cons c digits ih =>
      rw [Nat.ofDigitChars_cons] at hlimit ⊢
      have hsame : k * 10 + Text.decimalValue c = 10 * k + (c.toNat - '0'.toNat) := by
        rw [Nat.mul_comm, Text.decimalValue]
      have hnext : k * 10 + Text.decimalValue c ≤ exponentLimit := by
        rw [hsame]
        exact Nat.le_trans (le_ofDigitChars digits _) hlimit
      rw [List.cons_append, readExponentDigits, if_pos (hdigits c List.mem_cons_self),
        if_pos hnext, hsame]
      exact ih (fun d hd => hdigits d (List.mem_cons_of_mem c hd)) hlimit

/-- An exponent is added to the one that the digits have. -/
theorem readExponent_toDigits (start leading : Int) (hlimit : leading.natAbs ≤ exponentLimit)
    (hstop : startsDigit rest = false) :
    readExponent negative significand start
        ((if leading < 0 then '-' else '+') :: Nat.toDigits 10 leading.natAbs ++ rest) =
      ofParts negative significand (start + leading) rest := by
  obtain ⟨c, digits, heq⟩ :=
    List.exists_cons_of_ne_nil (Nat.toDigits_ne_nil (n := leading.natAbs) (b := 10))
  have hdigits := isDigit_of_mem_toDigits leading.natAbs
  have hvalue := Nat.ofDigitChars_ten_toDigits (n := leading.natAbs)
  rw [heq] at hdigits hvalue ⊢
  rw [Nat.ofDigitChars_cons, Nat.mul_zero, Nat.zero_add] at hvalue
  have hread : ∀ below, readSignedExponent negative significand start below (c :: digits ++ rest) =
      ofParts negative significand
        (if below then start - leading.natAbs else start + leading.natAbs) rest := by
    intro below
    rw [List.cons_append, readSignedExponent, if_pos (hdigits c List.mem_cons_self),
      readExponentDigits_append (fun d hd => hdigits d (List.mem_cons_of_mem c hd)) hstop
        (by rw [Text.decimalValue, hvalue]; exact hlimit), Text.decimalValue, hvalue]
  by_cases hneg : leading < 0
  · have hsum : start - leading.natAbs = start + leading := by omega
    rw [if_pos hneg, List.cons_append, readExponent, hread, if_pos rfl, hsum]
  · have hsum : start + (leading.natAbs : Int) = start + leading := by omega
    rw [if_neg hneg, List.cons_append, readExponent, hread, if_neg (by decide), hsum]

/-- Digits with a point among them. -/
theorem readUnsigned_pointed {n k : Nat} (hpos : 0 < n) (hlimit : n < significandLimit)
    (hk : 0 < k) (hlength : k < (Nat.toDigits 10 n).length) (hstop : startsDigit rest = false) :
    readUnsigned negative
        ((Nat.toDigits 10 n).take k ++ '.' :: (Nat.toDigits 10 n).drop k ++ rest) =
      readTail negative n (-((Nat.toDigits 10 n).length - k : Nat)) rest := by
  obtain ⟨c, digits, heq, hc⟩ := toDigits_eq_cons hpos
  have hdigits := isDigit_of_mem_toDigits n
  have hvalue := Nat.ofDigitChars_ten_toDigits (n := n)
  rw [← List.take_append_drop k (Nat.toDigits 10 n), Nat.ofDigitChars_append] at hvalue
  have hbefore := le_ofDigitChars ((Nat.toDigits 10 n).drop k)
    (Nat.ofDigitChars 10 ((Nat.toDigits 10 n).take k) 0)
  have hne : (Nat.toDigits 10 n).drop k ≠ [] := by
    rw [ne_eq, List.drop_eq_nil_iff]
    omega
  have htake : (Nat.toDigits 10 n).take k = c :: digits.take (k - 1) := by
    obtain ⟨j, rfl⟩ := Nat.exists_eq_add_of_lt hk
    rw [heq, List.take_succ_cons]
    rfl
  have hwhole : Nat.ofDigitChars 10 ((Nat.toDigits 10 n).take k) 0 < significandLimit := by omega
  have hbefore' : ∀ d ∈ (Nat.toDigits 10 n).take k, d.isDigit = true :=
    fun d hd => hdigits d (List.mem_of_mem_take hd)
  have hafter : ∀ d ∈ (Nat.toDigits 10 n).drop k, d.isDigit = true :=
    fun d hd => hdigits d (List.mem_of_mem_drop hd)
  have hpoint : readWholeTail negative (Nat.ofDigitChars 10 ((Nat.toDigits 10 n).take k) 0)
      ('.' :: (Nat.toDigits 10 n).drop k ++ rest) = _ :=
    readWholeTail_point hne hafter hstop (hvalue.symm ▸ hlimit)
  rw [hvalue, List.length_drop] at hpoint
  rw [← hpoint, List.append_assoc]
  rw [htake] at hwhole hbefore' ⊢
  exact readUnsigned_cons hc hbefore' rfl hwhole

/-- Digits behind a point and zeros. -/
theorem readUnsigned_behind {n zeros : Nat} (hlimit : n < significandLimit)
    (hstop : startsDigit rest = false) :
    readUnsigned negative
        ('0' :: '.' :: (List.replicate zeros '0' ++ Nat.toDigits 10 n) ++ rest) =
      readTail negative n (-(zeros + (Nat.toDigits 10 n).length : Nat)) rest := by
  have hdigits : ∀ c ∈ List.replicate zeros '0' ++ Nat.toDigits 10 n, c.isDigit = true := by
    intro c hc
    rcases List.mem_append.mp hc with hc | hc
    · rw [List.eq_of_mem_replicate hc]
      rfl
    · exact isDigit_of_mem_toDigits n c hc
  have hne : List.replicate zeros '0' ++ Nat.toDigits 10 n ≠ [] :=
    List.append_ne_nil_of_right_ne_nil _ Nat.toDigits_ne_nil
  have hvalue : Nat.ofDigitChars 10 (List.replicate zeros '0' ++ Nat.toDigits 10 n) 0 = n := by
    rw [Nat.ofDigitChars_append, Nat.ofDigitChars_replicate_zero, Nat.mul_zero,
      Nat.ofDigitChars_ten_toDigits]
  have hread : readWholeTail negative 0
      ('.' :: (List.replicate zeros '0' ++ Nat.toDigits 10 n) ++ rest) = _ :=
    readWholeTail_point hne hdigits hstop (hvalue.symm ▸ hlimit)
  rw [hvalue, List.length_append, List.length_replicate] at hread
  exact hread

/-- Digits filled up with zeros and a zero behind the point. -/
theorem readUnsigned_filled {n zeros : Nat} (hpos : 0 < n)
    (hlimit : n * 10 ^ (zeros + 1) < significandLimit) (hstop : startsDigit rest = false) :
    readUnsigned negative
        (Nat.toDigits 10 n ++ List.replicate zeros '0' ++ ['.', '0'] ++ rest) =
      readTail negative (n * 10 ^ (zeros + 1)) (-1) rest := by
  obtain ⟨c, digits, heq, hc⟩ := toDigits_eq_cons hpos
  have hdigits : ∀ d ∈ Nat.toDigits 10 n ++ List.replicate zeros '0', d.isDigit = true := by
    intro d hd
    rcases List.mem_append.mp hd with hd | hd
    · exact isDigit_of_mem_toDigits n d hd
    · rw [List.eq_of_mem_replicate hd]
      rfl
  have hvalue : Nat.ofDigitChars 10 (Nat.toDigits 10 n ++ List.replicate zeros '0') 0 =
      n * 10 ^ zeros := by
    rw [Nat.ofDigitChars_append, Nat.ofDigitChars_ten_toDigits, Nat.ofDigitChars_replicate_zero,
      Nat.mul_comm]
  have hlast : Nat.ofDigitChars 10 ['0'] (n * 10 ^ zeros) = n * 10 ^ (zeros + 1) := by
    rw [Nat.ofDigitChars_cons, Nat.ofDigitChars_nil, Nat.sub_self, Nat.add_zero, Nat.mul_comm,
      Nat.mul_assoc, ← Nat.pow_succ]
  have hzero : ∀ d ∈ ['0'], d.isDigit = true := by
    intro d hd
    rw [List.mem_singleton.mp hd]
    rfl
  have hpoint : readWholeTail negative (n * 10 ^ zeros) ('.' :: ['0'] ++ rest) = _ :=
    readWholeTail_point (List.cons_ne_nil _ _) hzero hstop (hlast.symm ▸ hlimit)
  have hwhole : n * 10 ^ zeros < significandLimit :=
    Nat.lt_of_le_of_lt
      (Nat.mul_le_mul_left n (Nat.pow_le_pow_right (by decide) (Nat.le_succ zeros))) hlimit
  rw [hlast, List.length_singleton] at hpoint
  rw [← hvalue] at hwhole hpoint
  rw [heq, List.cons_append] at hdigits hwhole hpoint ⊢
  rw [List.append_assoc, readUnsigned_cons hc hdigits rfl hwhole]
  exact hpoint

end Number

/-- The significand and the exponent that the reader gathers from the text of a decimal. -/
def gathered (d : Decimal) : Decimal :=
  if 0 ≤ d.exponent ∧ d.leadingExponent < 16 then ⟨d.digits * 10 ^ (d.exponent.toNat + 1), -1⟩
  else d

theorem padded_one (n : Nat) : DecimalLayout.padded 1 n = Nat.toDigits 10 n := by
  have hlength : 0 < (Nat.toDigits 10 n).length := Nat.length_toDigits_pos
  have hnone : 1 - (Nat.toDigits 10 n).length = 0 := by omega
  rw [DecimalLayout.padded, hnone, List.replicate_zero, List.nil_append]

section Decimals

open Number

variable {negative : Bool} {d : Decimal} {rest : List Char}

theorem readUnsigned_scientific {n : Nat} {leading : Int} (hpos : 0 < n)
    (hlimit : n < significandLimit) (hexponent : leading.natAbs ≤ exponentLimit)
    (hends : Ends rest) :
    readUnsigned negative (floatLayout.writeScientific (Nat.toDigits 10 n) leading ++ rest) =
      ofParts negative n (leading + 1 - (Nat.toDigits 10 n).length) rest := by
  have hstop := startsDigit_of_ends hends
  have hlength : 0 < (Nat.toDigits 10 n).length := Nat.length_toDigits_pos
  have hread := fun start => @readExponent_toDigits negative n rest start leading hexponent hstop
  rw [DecimalLayout.writeScientific, floatLayout, padded_one]
  by_cases hone : (Nat.toDigits 10 n).length ≤ 1
  · obtain ⟨c, digits, heq, hc⟩ := toDigits_eq_cons hpos
    have hdigits := isDigit_of_mem_toDigits n
    have hvalue := Nat.ofDigitChars_ten_toDigits (n := n)
    have hsum : 0 + leading = leading + 1 - (Nat.toDigits 10 n).length := by omega
    rw [if_pos hone, List.take_of_length_le hone, List.append_nil, List.append_assoc, ← hsum,
      ← hread]
    rw [heq] at hdigits hvalue ⊢
    rw [readUnsigned_cons hc hdigits rfl (hvalue.symm ▸ hlimit), hvalue]
    rfl
  · have hsum : -((Nat.toDigits 10 n).length - 1 : Nat) + leading =
        leading + 1 - (Nat.toDigits 10 n).length := by omega
    rw [if_neg hone, List.append_assoc, ← hsum, ← hread,
      readUnsigned_pointed hpos hlimit Nat.one_pos (Nat.lt_of_not_le hone) rfl]
    rfl

theorem digitCount_of_pos {n : Nat} (hpos : 0 < n) :
    Decimal.digitCount n = (Nat.toDigits 10 n).length :=
  if_neg (Nat.ne_of_gt hpos)

theorem readUnsigned_plain {n : Nat} {leading e : Int} (hpos : 0 < n)
    (hlimit : n < significandLimit) (he : leading + 1 - (Nat.toDigits 10 n).length = e)
    (hleading : leading < 16) (hends : Ends rest) :
    readUnsigned negative (floatLayout.writePlain (Nat.toDigits 10 n) leading ++ rest) =
      if 0 ≤ e then ofParts negative (n * 10 ^ (e.toNat + 1)) (-1) rest
      else ofParts negative n e rest := by
  have hstop := startsDigit_of_ends hends
  have hlength : 0 < (Nat.toDigits 10 n).length := Nat.length_toDigits_pos
  rw [DecimalLayout.writePlain]
  by_cases hneg : leading < 0
  · have hexponent : (-((-leading - 1).toNat + (Nat.toDigits 10 n).length : Nat) : Int) = e := by
      omega
    have hfraction : ¬ 0 ≤ e := by omega
    have hread := @readUnsigned_behind negative rest n (-leading - 1).toNat hlimit hstop
    rw [hexponent, readTail_of_ends hends] at hread
    rw [if_pos hneg, if_neg hfraction]
    exact hread
  · rw [if_neg hneg, DecimalLayout.pointed]
    by_cases hwhole : 0 ≤ e
    · have hfit : (Nat.toDigits 10 n).length ≤ leading.toNat + 1 := by omega
      have hzeros : leading.toNat + 1 - (Nat.toDigits 10 n).length = e.toNat := by omega
      have hcount := digitCount_of_pos hpos
      have hless : n * 10 ^ (e.toNat + 1) < 10 ^ 17 := Decimal.mul_pow_lt (by omega)
      have hfilled := Nat.lt_trans hless (by decide : 10 ^ 17 < significandLimit)
      have hread := @readUnsigned_filled negative rest n e.toNat hpos hfilled hstop
      rw [readTail_of_ends hends] at hread
      rw [if_pos hfit, if_pos hwhole, hzeros]
      exact hread
    · have hmore : ¬ (Nat.toDigits 10 n).length ≤ leading.toNat + 1 := by omega
      have hexponent :
          (-((Nat.toDigits 10 n).length - (leading.toNat + 1) : Nat) : Int) = e := by omega
      rw [if_neg hmore, if_neg hwhole,
        readUnsigned_pointed hpos hlimit (Nat.succ_pos _) (Nat.lt_of_not_le hmore) hstop,
        hexponent, readTail_of_ends hends]

/-- Reading the text of a decimal comes down to scaling what it gathers. -/
theorem readUnsigned_write (hpos : 0 < d.digits) (hdigits : d.digits ≤ 10 ^ 17)
    (hexponent : d.leadingExponent.natAbs ≤ exponentLimit) (hends : Ends rest) :
    readUnsigned negative (floatLayout.write d ++ rest) =
      ofParts negative (gathered d).digits (gathered d).exponent rest := by
  have hlimit : d.digits < significandLimit := Nat.lt_of_le_of_lt hdigits (by decide)
  have hstop := startsDigit_of_ends hends
  have hlength : 0 < (Nat.toDigits 10 d.digits).length := Nat.length_toDigits_pos
  have hcount := digitCount_of_pos hpos
  rw [Decimal.leadingExponent, hcount] at hexponent
  rw [gathered, Decimal.leadingExponent, hcount, DecimalLayout.write]
  generalize hleading : d.exponent + (Nat.toDigits 10 d.digits).length - 1 = leading at *
  have hexponent' : leading + 1 - (Nat.toDigits 10 d.digits).length = d.exponent := by omega
  by_cases hplain : -5 ≤ leading ∧ leading < 16
  · have hisPlain : floatLayout.isPlain leading = true := by simpa [floatLayout] using hplain
    rw [if_pos hisPlain, readUnsigned_plain hpos hlimit hexponent' hplain.2 hends]
    simp only [hplain.2, and_true]
    split <;> rfl
  · have hisPlain : ¬ floatLayout.isPlain leading = true := by simpa [floatLayout] using hplain
    have hkept : ¬ (0 ≤ d.exponent ∧ leading < 16) := by omega
    rw [if_neg hisPlain, if_neg hkept, readUnsigned_scientific hpos hlimit hexponent hends,
      hexponent']

end Decimals

end WorkflowExpr.Json
