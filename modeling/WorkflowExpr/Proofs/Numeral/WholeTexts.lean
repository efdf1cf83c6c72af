import WorkflowExpr.Eval
import WorkflowExpr.Proofs.Binary64.Ties
import WorkflowExpr.Proofs.Evaluation
import WorkflowExpr.Proofs.Numeral.Reading

/-!
Whole numbers beside their texts. In decimal a whole number is read as its literal is. In
hexadecimal and octal the digits after the first fifty-three bits and one digit more are lost
before the rounding, so a number whose late digits break a tie is read as one that is not the
nearest.
-/

namespace WorkflowExpr

namespace Numeral

open Text

variable {base n : Nat} {values : List Nat} {digits text : List Char}

section Blanks

theorem not_blank_of_isDigitOf (hbase : base ≤ 16) {c : Char} {value : Nat}
    (h : IsDigitOf base c value) : isBlank c = false := by
  obtain ⟨hlt, hc⟩ := h
  have hvalue : value < 16 := Nat.lt_of_lt_of_le hlt hbase
  clear hlt
  revert hc
  interval_cases value <;> rintro (rfl | rfl) <;> decide

theorem not_blank_of_digital (hbase : base ≤ 16) (h : List.Forall₂ (IsDigitOf base) digits values) :
    ∀ c ∈ digits, isBlank c = false := by
  induction h with
  | nil => exact List.forall_mem_nil _
  | cons hdigit _ ih => exact List.forall_mem_cons.mpr ⟨not_blank_of_isDigitOf hbase hdigit, ih⟩

theorem RadixText.trimBlank_eq (h : RadixText base values text) : trimBlank text = text := by
  cases h with
  | mk hmark _ hdigits =>
      refine trimBlank_of_forall (List.forall_mem_append.mpr ⟨?_, ?_⟩)
      · cases hmark <;> exact List.forall_mem_cons.mpr ⟨rfl, List.forall_mem_singleton.mpr rfl⟩
      · exact not_blank_of_digital hmark.le_sixteen hdigits

end Blanks

section Digits

/-- Digits in front count by the number of digits behind them. -/
theorem ofValues_append (base : Nat) (kept dropped : List Nat) :
    ofValues base (kept ++ dropped) =
      ofValues base kept * base ^ dropped.length + ofValues base dropped := by
  have hfrom : ∀ n, dropped.foldl (fun n value => base * n + value) n =
      n * base ^ dropped.length + ofValues base dropped := by
    induction dropped with
    | nil =>
        intro n
        exact (Nat.mul_one n).symm
    | cons value dropped ih =>
        intro n
        have hfirst : ofValues base (value :: dropped) =
            value * base ^ dropped.length + ofValues base dropped := by
          rw [ofValues, List.foldl_cons, Nat.mul_zero, Nat.zero_add, ih]
        rw [List.foldl_cons, ih, hfirst, List.length_cons]
        ring
  rw [ofValues, List.foldl_append, hfrom]
  rfl

theorem ofValues_lt (h : ∀ v ∈ values, v < base) : ofValues base values < base ^ values.length := by
  induction values with
  | nil => exact Nat.one_pos
  | cons value values ih =>
      rw [List.forall_mem_cons] at h
      have hrest := ih h.2
      have hsplit := ofValues_append base [value] values
      have hfirst : ofValues base [value] = value := by simp [ofValues]
      rw [List.singleton_append, hfirst] at hsplit
      have hstep := Nat.mul_le_mul_right (base ^ values.length) (Nat.succ_le_of_lt h.1)
      rw [Nat.succ_mul] at hstep
      rw [hsplit, List.length_cons, Nat.pow_succ']
      omega

/-- The digits of a whole number write it. -/
theorem exists_values (hbase : 1 < base) (n : Nat) :
    ∃ values, List.Forall₂ (IsDigitOf base) (Nat.toDigits base n) values ∧
      ofValues base values = n := by
  induction n using Nat.strongRecOn with
  | _ n ih =>
      rcases Nat.lt_or_ge n base with hlt | hge
      · refine ⟨[n], ?_, ?_⟩
        · rw [Nat.toDigits_of_lt_base hlt]
          exact .cons ⟨hlt, .inl rfl⟩ .nil
        · rw [ofValues, List.foldl_cons, List.foldl_nil, Nat.mul_zero, Nat.zero_add]
      · obtain ⟨values, hvalues, hnumber⟩ := ih (n / base) (Nat.div_lt_self (by omega) hbase)
        refine ⟨values ++ [n % base], ?_, ?_⟩
        · rw [Nat.toDigits_of_base_le hbase hge]
          have hlast : IsDigitOf base (Nat.digitChar (n % base)) (n % base) :=
            ⟨Nat.mod_lt n (by omega), .inl rfl⟩
          exact List.rel_append hvalues (.cons hlast .nil)
        · rw [ofValues_append, hnumber, ofValues, List.foldl_cons, List.foldl_nil, Nat.mul_zero,
            Nat.zero_add, List.length_singleton, Nat.pow_one, Nat.div_add_mod']

theorem radixText_toDigits {mark : List Char} (hmark : Mark base mark) (n : Nat) :
    ∃ values, RadixText base values (mark ++ Nat.toDigits base n) ∧ ofValues base values = n := by
  have hbase : 1 < base := by cases hmark <;> decide
  obtain ⟨values, hvalues, hnumber⟩ := exists_values hbase n
  exact ⟨values, .mk hmark Nat.toDigits_ne_nil hvalues, hnumber⟩

theorem decimalText_toDigits {negative : Bool} {sign : List Char} (hsign : SignText negative sign)
    (n : Nat) : DecimalText negative ⟨n, 0⟩ (sign ++ Nat.toDigits 10 n) := by
  have hdigits : Digits (Nat.toDigits 10 n ++ []) := by
    rw [List.append_nil]
    exact fun c hc => Nat.isDigit_of_mem_toDigits (by decide) (by decide) hc
  have htext := DecimalText.mk hsign (.whole Nat.toDigits_ne_nil) hdigits .none
  rw [List.append_nil, List.append_nil, ofDigits, Nat.ofDigitChars_ten_toDigits] at htext
  exact htext

end Digits

section Nearest

open Binary64

/-- What marked digits are read as. The late digits are lost, which matters only where the ones
before them are halfway between two numbers and their tie goes down. -/
theorem isNearest_read_radix (h : RadixText base values text) :
    ∃ kept dropped, values = kept ++ dropped ∧ ofValues base kept < base * 2 ^ 53 ∧
      (dropped ≠ [] → 2 ^ 53 ≤ ofValues base kept) ∧
      IsNearest false ((ofValues base kept * base ^ dropped.length : Nat) : ℚ)
        (read (String.ofList text)) ∧
      (IsNearest false (ofValues base values : ℚ) (read (String.ofList text)) ↔
        ofValues base dropped = 0 ∨ Magnitude.Clear (ofValues base kept) ∨
          (read (String.ofList text)).isInfinite = true) := by
  obtain ⟨kept, dropped, rfl, hless, hlarge, hnearest⟩ := isNearest_foldl_pushDigit h
  rw [read, String.toList_ofList, h.trimBlank_eq, readTrimmed_of_radixText h]
  refine ⟨kept, dropped, rfl, hless, hlarge, hnearest, ?_⟩
  rw [ofValues_append]
  cases dropped with
  | nil => exact iff_of_true hnearest (.inl rfl)
  | cons value dropped =>
      cases h with
      | mk hmark _ hdigits =>
          obtain ⟨bits, -, rfl⟩ := hmark.exists_bits
          have hbelow := ofValues_lt (List.forall_mem_append.mp (lt_of_digits hdigits)).2
          rw [← Nat.pow_mul] at hnearest hbelow ⊢
          exact isNearest_add_iff (hlarge (List.cons_ne_nil _ _)) hbelow hnearest

/-- A number of one more digit than fifty-three bits hold, or fewer, is read as the nearest. -/
theorem isNearest_read_radix_of_lt (h : RadixText base values text)
    (hless : ofValues base values < base * 2 ^ 53) :
    IsNearest false (ofValues base values : ℚ) (read (String.ofList text)) := by
  obtain ⟨kept, dropped, rfl, -, hdropped, -, hnearest⟩ := isNearest_read_radix h
  refine hnearest.mpr (.inl ?_)
  cases dropped with
  | nil => rfl
  | cons value dropped =>
      have hlarge := hdropped (List.cons_ne_nil _ _)
      have hpower : base ≤ base ^ (value :: dropped).length := Nat.le_self_pow (by simp) base
      have hmore := Nat.mul_le_mul hlarge hpower
      rw [ofValues_append] at hless
      rw [Nat.mul_comm] at hmore
      omega

theorem isNearest_read_toDigits (n : Nat) :
    IsNearest false (n : ℚ) (read (String.ofList (Nat.toDigits 10 n))) := by
  have hread := (decimalText_toDigits .none n).isNearest_read
  rwa [List.nil_append, Decimal.value, zpow_zero, mul_one] at hread

end Nearest

section Literals

open Binary64

/-- An integer literal equals a text just if the text is read as the number nearest to it. -/
theorem eval_int_eq_string (registry : Registry) (ctx : Context) (s₁ s₂ s₃ : Span)
    {value : Int64} (hvalue : value.toInt = n) {q : ℚ} {text : String}
    (h : IsNearest false q (read text)) (next : Identity) :
    (Expr.compare s₁ .eq (.int s₂ value) (.string s₃ text)).eval registry ctx next =
        .ok (.ofBool true, next) ↔
      IsNearest false (n : ℚ) (read text) := by
  have heval : (Expr.compare s₁ .eq (.int s₂ value) (.string s₃ text)).eval registry ctx next =
      .ok (.ofBool ((ofInt value.toInt).numericEq (read text)), next) := rfl
  rw [heval, hvalue, Evaluation.ok_ofBool_inj]
  constructor
  · intro hequal
    rw [← (isNearest_ofInt n).eq_of_numericEq h hequal]
    exact isNearest_ofInt n
  · intro hnearest
    rw [hnearest.unique (isNearest_ofInt n), numericEq_self (isNaN_ofInt _)]

end Literals

section Main

open Binary64 Magnitude

/-- Marked digits are read as the nearest number to the digits up to the first beyond fifty-three
bits, with zeros for the others. That is the nearest number to all of them just if the others
are zeros or break no tie that goes down, and then an integer literal equals the text, which
can be its own hexadecimal text. It always equals its decimal text. -/
theorem read_radix (h : RadixText base values text) :
    (∃ kept dropped, values = kept ++ dropped ∧ ofValues base kept < base * 2 ^ 53 ∧
      (dropped ≠ [] → 2 ^ 53 ≤ ofValues base kept) ∧
      IsNearest false ((ofValues base kept * base ^ dropped.length : Nat) : ℚ)
        (read (String.ofList text)) ∧
      (IsNearest false (ofValues base values : ℚ) (read (String.ofList text)) ↔
        ofValues base dropped = 0 ∨ Clear (ofValues base kept) ∨
          (read (String.ofList text)).isInfinite = true)) ∧
    (ofValues base values < base * 2 ^ 53 →
      IsNearest false (ofValues base values : ℚ) (read (String.ofList text))) ∧
    (∃ own, RadixText 16 own ('0' :: 'x' :: Nat.toDigits 16 (ofValues base values)) ∧
      ofValues 16 own = ofValues base values) ∧
    ∀ (registry : Registry) (ctx : Context) (s₁ s₂ s₃ : Span) (value : Int64) (next : Identity),
      value.toInt = ofValues base values →
      ((Expr.compare s₁ .eq (.int s₂ value) (.string s₃ (String.ofList text))).eval
            registry ctx next = .ok (.ofBool true, next) ↔
          IsNearest false (ofValues base values : ℚ) (read (String.ofList text))) ∧
      (Expr.compare s₁ .eq (.int s₂ value)
          (.string s₃ (String.ofList (Nat.toDigits 10 (ofValues base values))))).eval
          registry ctx next = .ok (.ofBool true, next) := by
  have hread := isNearest_read_radix h
  refine ⟨hread, isNearest_read_radix_of_lt h, radixText_toDigits .hexadecimal _,
    fun registry ctx s₁ s₂ s₃ value next hvalue => ?_⟩
  obtain ⟨kept, dropped, -, -, -, hkept, -⟩ := hread
  have hdecimal := isNearest_read_toDigits (ofValues base values)
  exact ⟨eval_int_eq_string registry ctx s₁ s₂ s₃ hvalue hkept next,
    (eval_int_eq_string registry ctx s₁ s₂ s₃ hvalue hdecimal next).mpr hdecimal⟩

/-- The digits of `0x200000000000031`, whose first fourteen end on a tie that goes up. -/
def roundedUp : List Nat := [2, 0, 0, 0, 0, 0, 0, 0, 0, 0, 0, 0, 0, 3, 1]

theorem read_radix_rounded_up :
    RadixText 16 roundedUp "0x200000000000031".toList ∧
    IsNearest false (ofValues 16 roundedUp : ℚ) (read "0x200000000000031") ∧
    (144115188075855921 : Int64).toInt = ofValues 16 roundedUp ∧
    (Expr.compare .nowhere .eq (.int .nowhere 144115188075855921)
        (.string .nowhere "0x200000000000031")).eval .empty .empty 0 = .ok (.ofBool true, 0) := by
  have htext : RadixText 16 roundedUp "0x200000000000031".toList :=
    .mk .hexadecimal (List.cons_ne_nil _ _)
      ((mapM_digitValue?_eq_some (Nat.le_refl 16)).mp (by decide))
  have hclear : ∀ k ≤ 15, (roundedUp.drop k ≠ [] → 2 ^ 53 ≤ ofValues 16 (roundedUp.take k)) →
      ofValues 16 (roundedUp.drop k) = 0 ∨ Clear (ofValues 16 (roundedUp.take k)) := by
    decide +kernel
  have hvalue : (144115188075855921 : Int64).toInt = ofValues 16 roundedUp := by decide
  obtain ⟨⟨kept, dropped, hsplit, -, hlarge, -, hnearest⟩, -, -, hcompare⟩ := read_radix htext
  have hcount : kept.length ≤ 15 := by
    have hlength := congrArg List.length hsplit
    rw [List.length_append] at hlength
    exact (Nat.le_add_right _ _).trans hlength.ge
  have hnumber := hclear kept.length hcount
  rw [hsplit, List.take_left, List.drop_left] at hnumber
  rw [String.ofList_toList] at hnearest hcompare
  have hup := hnearest.mpr ((hnumber hlarge).imp_right .inl)
  exact ⟨htext, hup, hvalue,
    (hcompare .empty .empty .nowhere .nowhere .nowhere _ 0 hvalue).1.mpr hup⟩

/-- The digits of `0x200000000000011`, whose first fourteen end on a tie that goes down. -/
def roundedDown : List Nat := [2, 0, 0, 0, 0, 0, 0, 0, 0, 0, 0, 0, 0, 1, 1]

/-- A text whose last digit should break the tie of those before it is not read as the nearest
number, so an integer literal differs from its own hexadecimal text. -/
theorem not_read_radix_nearest :
    RadixText 16 roundedDown "0x200000000000011".toList ∧
    ¬ IsNearest false (ofValues 16 roundedDown : ℚ) (read "0x200000000000011") ∧
    (144115188075855889 : Int64).toInt = ofValues 16 roundedDown ∧
    Nat.toDigits 16 (ofValues 16 roundedDown) = "200000000000011".toList ∧
    (Expr.compare .nowhere .eq (.int .nowhere 144115188075855889)
        (.string .nowhere "0x200000000000011")).eval .empty .empty 0 = .ok (.ofBool false, 0) := by
  have htext : RadixText 16 roundedDown "0x200000000000011".toList :=
    .mk .hexadecimal (List.cons_ne_nil _ _)
      ((mapM_digitValue?_eq_some (Nat.le_refl 16)).mp (by decide))
  have hread : read "0x200000000000011" ≠ ofRatio false (ofValues 16 roundedDown) 1 := by
    decide +kernel
  have hdiffers : (ofInt (144115188075855889 : Int64).toInt).numericEq
      (read "0x200000000000011") = false := by
    decide +kernel
  exact ⟨htext, fun hnearest => hread (isNearest_natCast_iff.mp hnearest), by decide, by decide,
    congrArg (fun b => Except.ok (TypedValue.ofBool b, 0)) hdiffers⟩

end Main

end Numeral

end WorkflowExpr
