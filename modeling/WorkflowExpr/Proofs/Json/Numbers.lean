import WorkflowExpr.Json.Number
import WorkflowExpr.Json.Writer

/-!
Whole numbers read back. Their digits gather in the significand they came from as long as
that has no more than sixty-four bits.
-/

namespace WorkflowExpr.Json

/-- Whether what follows a number leaves its digits alone. -/
def Ends (rest : List Char) : Prop :=
  ∀ c ∈ rest.head?, c.isDigit = false ∧ c ≠ '.' ∧ c ≠ 'e' ∧ c ≠ 'E'

namespace Number

variable {negative : Bool} {significand : Nat} {digits rest : List Char}

theorem readWholeTail_of_ends (h : Ends rest) :
    readWholeTail negative significand rest = .ok (ofWhole negative significand, rest) := by
  cases rest with
  | nil => rfl
  | cons c rest =>
      obtain ⟨-, hpoint, hlower, hupper⟩ := h c rfl
      rw [readWholeTail]
      · rintro text ⟨⟩
        exact hpoint rfl
      · rintro text ⟨⟩
        exact hlower rfl
      · rintro text ⟨⟩
        exact hupper rfl

theorem le_ofDigitChars (digits : List Char) (significand : Nat) :
    significand ≤ Nat.ofDigitChars 10 digits significand := by
  induction digits generalizing significand with
  | nil => exact Nat.le_refl significand
  | cons c digits ih =>
      rw [Nat.ofDigitChars_cons]
      have hlater := ih (10 * significand + (c.toNat - '0'.toNat))
      omega

theorem pushDigit?_of_lt {c : Char} (digits : List Char)
    (h : Nat.ofDigitChars 10 (c :: digits) significand < significandLimit) :
    pushDigit? significand c = some (10 * significand + (c.toNat - '0'.toNat)) := by
  have hsame : significand * 10 + Text.decimalValue c =
      10 * significand + (c.toNat - '0'.toNat) := by rw [Nat.mul_comm, Text.decimalValue]
  rw [pushDigit?, hsame]
  exact if_pos (Nat.lt_of_le_of_lt (le_ofDigitChars digits _) h)

theorem startsDigit_of_ends (h : Ends rest) : startsDigit rest = false := by
  cases rest with
  | nil => rfl
  | cons c rest => exact (h c rfl).1

theorem not_isDigit_of_startsDigit {c : Char} (h : startsDigit (c :: rest) = false) :
    ¬ c.isDigit = true := Bool.eq_false_iff.mp h

theorem readWholeDigits_cons (c : Char) (text : List Char) :
    readWholeDigits negative significand (c :: text) =
      if c.isDigit then
        match pushDigit? significand c with
        | some significand => readWholeDigits negative significand text
        | none =>
            readLongTail negative significand ((c :: text).takeWhile Char.isDigit).length
              (text.dropWhile Char.isDigit)
      else readWholeTail negative significand (c :: text) := (rfl)

/-- Digits gather in the number that they write, if it is not too large. -/
theorem readWholeDigits_append (hdigits : ∀ c ∈ digits, c.isDigit = true)
    (hstop : startsDigit rest = false)
    (hlimit : Nat.ofDigitChars 10 digits significand < significandLimit) :
    readWholeDigits negative significand (digits ++ rest) =
      readWholeTail negative (Nat.ofDigitChars 10 digits significand) rest := by
  induction digits generalizing significand with
  | nil =>
      cases rest with
      | nil => rfl
      | cons c rest =>
          rw [List.nil_append, readWholeDigits_cons, if_neg (not_isDigit_of_startsDigit hstop),
            Nat.ofDigitChars_nil]
  | cons c digits ih =>
      rw [List.cons_append, readWholeDigits_cons, if_pos (hdigits c List.mem_cons_self),
        pushDigit?_of_lt digits hlimit]
      exact ih (fun d hd => hdigits d (List.mem_cons_of_mem c hd)) hlimit

/-- A positive number is not written with a leading zero. -/
theorem toDigits_eq_cons {n : Nat} (h : 0 < n) :
    ∃ c digits, Nat.toDigits 10 n = c :: digits ∧ c ≠ '0' := by
  induction n using Nat.strongRecOn with
  | _ n ih =>
      rcases Nat.lt_or_ge n 10 with hlt | hge
      · refine ⟨Nat.digitChar n, [], Nat.toDigits_of_lt_base hlt, ?_⟩
        rw [ne_eq, Nat.digitChar_eq_zero]
        omega
      · obtain ⟨c, digits, heq, hc⟩ := ih (n / 10) (by omega) (by omega)
        refine ⟨c, digits ++ [Nat.digitChar (n % 10)], ?_, hc⟩
        rw [Nat.toDigits_of_base_le (by omega) hge, heq, List.cons_append]

/-- Digits without a leading zero are read as the number that they write. -/
theorem readUnsigned_cons {c : Char} (hfirst : c ≠ '0')
    (hdigits : ∀ d ∈ c :: digits, d.isDigit = true) (hstop : startsDigit rest = false)
    (hlimit : Nat.ofDigitChars 10 (c :: digits) 0 < significandLimit) :
    readUnsigned negative (c :: digits ++ rest) =
      readWholeTail negative (Nat.ofDigitChars 10 (c :: digits) 0) rest := by
  have hvalue : Nat.ofDigitChars 10 digits (Text.decimalValue c) =
      Nat.ofDigitChars 10 (c :: digits) 0 := by
    rw [Nat.ofDigitChars_cons, Nat.mul_zero, Nat.zero_add, Text.decimalValue]
  rw [List.cons_append, readUnsigned, if_pos (hdigits c List.mem_cons_self),
    readWholeDigits_append (fun d hd => hdigits d (List.mem_cons_of_mem c hd)) hstop
      (hvalue ▸ hlimit), hvalue]
  exact hfirst

theorem isDigit_of_mem_toDigits (n : Nat) : ∀ c ∈ Nat.toDigits 10 n, c.isDigit = true :=
  fun _ hc => Nat.isDigit_of_mem_toDigits (by decide) (by decide) hc

/-- The digits of a number are read as the number. -/
theorem readUnsigned_toDigits (negative : Bool) {n : Nat} (h : n < significandLimit)
    (hends : Ends rest) :
    readUnsigned negative (Nat.toDigits 10 n ++ rest) = .ok (ofWhole negative n, rest) := by
  have hstop := startsDigit_of_ends hends
  rcases Nat.eq_zero_or_pos n with rfl | hpos
  · rw [Nat.toDigits_zero, List.singleton_append, readUnsigned, if_neg (by simp [hstop])]
    exact readWholeTail_of_ends hends
  · obtain ⟨c, digits, heq, hc⟩ := toDigits_eq_cons hpos
    have hdigits := isDigit_of_mem_toDigits n
    have hread := Nat.ofDigitChars_ten_toDigits (n := n)
    rw [heq] at hdigits hread ⊢
    rw [readUnsigned_cons hc hdigits hstop (hread ▸ h), hread, readWholeTail_of_ends hends]

end Number

end WorkflowExpr.Json
