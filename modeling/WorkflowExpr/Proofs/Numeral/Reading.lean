import Mathlib.Data.List.TakeWhile
import WorkflowExpr.Proofs.Numeral.Radix

/-!
Which texts are numbers. Without the blanks around it a text is a number if nothing is left of
it, if it is a decimal, if it is a whole number with the mark of its base, or if it spells
infinity. Everything else is read as not-a-number. A decimal is read as the nearest number to
what it says.
-/

namespace WorkflowExpr

namespace Text

variable {text trimmed : List Char}

/-- A text without the blanks at its two ends: what was there is blank, and what is left does
neither begin nor end so. -/
structure TrimsTo (text trimmed : List Char) : Prop where
  around : ∃ before after, text = before ++ trimmed ++ after ∧
    ∀ c ∈ before ++ after, isBlank c = true
  head : ∀ c ∈ trimmed.head?, isBlank c = false
  last : ∀ c ∈ trimmed.getLast?, isBlank c = false

theorem not_blank_head_dropWhile (text : List Char) :
    ∀ c ∈ (text.dropWhile isBlank).head?, isBlank c = false := by
  intro c hc
  have hnot := List.head?_dropWhile_not isBlank text
  rw [Option.mem_def.mp hc] at hnot
  exact hnot

theorem trimsTo_trimBlank (text : List Char) : TrimsTo text (trimBlank text) := by
  have hfront : text.takeWhile isBlank ++ text.dropWhile isBlank = text :=
    List.takeWhile_append_dropWhile
  have hmiddle : trimBlank text ++ ((text.dropWhile isBlank).reverse.takeWhile isBlank).reverse =
      text.dropWhile isBlank := by
    rw [trimBlank, ← List.reverse_append, List.takeWhile_append_dropWhile, List.reverse_reverse]
  refine ⟨⟨text.takeWhile isBlank,
    ((text.dropWhile isBlank).reverse.takeWhile isBlank).reverse, ?_, ?_⟩, ?_, ?_⟩
  · rw [List.append_assoc, hmiddle, hfront]
  · rw [List.forall_mem_append]
    refine ⟨fun c hc => List.mem_takeWhile_imp hc, fun c hc => ?_⟩
    exact List.mem_takeWhile_imp (List.mem_reverse.mp hc)
  · intro c hc
    refine not_blank_head_dropWhile text c ?_
    rw [← hmiddle, List.head?_append, Option.mem_def.mp hc]
    rfl
  · rw [trimBlank, List.getLast?_reverse]
    exact not_blank_head_dropWhile _

theorem dropWhile_of_not_blank (h : ∀ c ∈ text.head?, isBlank c = false) :
    text.dropWhile isBlank = text := by
  cases text with
  | nil => rfl
  | cons c text => rw [List.dropWhile_cons_of_neg (by rw [h c rfl]; decide)]

/-- A text without blanks at its ends stays. -/
theorem trimBlank_of_not_blank (hhead : ∀ c ∈ text.head?, isBlank c = false)
    (hlast : ∀ c ∈ text.getLast?, isBlank c = false) : trimBlank text = text := by
  rw [trimBlank, dropWhile_of_not_blank hhead, dropWhile_of_not_blank, List.reverse_reverse]
  rwa [List.head?_reverse]

/-- A text without blanks stays. -/
theorem trimBlank_of_forall (h : ∀ c ∈ text, isBlank c = false) : trimBlank text = text :=
  trimBlank_of_not_blank (fun c hc => h c (List.mem_of_mem_head? hc))
    (fun c hc => h c (List.mem_of_mem_getLast? hc))

theorem trimBlank_trimBlank (text : List Char) : trimBlank (trimBlank text) = trimBlank text :=
  trimBlank_of_not_blank (trimsTo_trimBlank text).head (trimsTo_trimBlank text).last

end Text

namespace Numeral

open Text

variable {negative : Bool} {d : Decimal} {exponent : Int} {c : Char}
  {sign whole fraction body tail digits text : List Char}

section Characters

def IsDecimalChar (c : Char) : Prop := c.isDigit = true ∨ c ∈ ['+', '-', '.', 'e', 'E']

instance : DecidablePred IsDecimalChar := fun c =>
  inferInstanceAs (Decidable (c.isDigit = true ∨ c ∈ ['+', '-', '.', 'e', 'E']))

theorem Digits.forall_mem (h : Digits digits) : ∀ c ∈ digits, IsDecimalChar c :=
  fun c hc => .inl (h c hc)

theorem SignText.forall_mem (h : SignText negative sign) : ∀ c ∈ sign, IsDecimalChar c := by
  cases h <;> simp [IsDecimalChar]

theorem PointText.forall_mem (h : PointText whole fraction body)
    (hdigits : Digits (whole ++ fraction)) : ∀ c ∈ body, IsDecimalChar c := by
  obtain ⟨hwhole, hfraction⟩ := digits_append.mp hdigits
  cases h with
  | whole => exact hwhole.forall_mem
  | point =>
      rw [List.forall_mem_append, List.forall_mem_cons]
      exact ⟨hwhole.forall_mem, by decide, hfraction.forall_mem⟩

theorem ExponentText.forall_mem (h : ExponentText exponent tail) :
    ∀ c ∈ tail, IsDecimalChar c := by
  cases h with
  | none => simp
  | marked hmark hsign hne hdigits =>
      rw [List.forall_mem_cons, List.forall_mem_append]
      refine ⟨?_, hsign.forall_mem, hdigits.forall_mem⟩
      rcases hmark with rfl | rfl <;> decide

/-- A decimal is written with digits, signs, a point and a mark. -/
theorem DecimalText.forall_mem (h : DecimalText negative d text) :
    ∀ c ∈ text, IsDecimalChar c := by
  cases h with
  | mk hsign hpoint hdigits hexponent =>
      rw [List.forall_mem_append, List.forall_mem_append]
      exact ⟨⟨hsign.forall_mem, hpoint.forall_mem hdigits⟩, hexponent.forall_mem⟩

theorem IsDecimalChar.not_blank (h : IsDecimalChar c) : isBlank c = false := by
  rcases h with hdigit | hmark
  · have hmark : c ≠ byteOrderMark := by
      rintro rfl
      revert hdigit
      decide
    have hcode : 48 ≤ c.toNat ∧ c.toNat ≤ 57 := by
      simpa [Char.isDigit, UInt32.le_iff_toNat_le] using hdigit
    simp [isBlank, isWhiteSpace, inRanges, whiteSpaceRanges, hmark]
    omega
  · simp only [List.mem_cons, List.not_mem_nil, or_false] at hmark
    rcases hmark with rfl | rfl | rfl | rfl | rfl <;> decide

/-- The text of a decimal has no blanks. -/
theorem DecimalText.trimBlank_eq (h : DecimalText negative d text) : trimBlank text = text := by
  apply trimBlank_of_forall
  intro c hc
  exact (h.forall_mem c hc).not_blank

end Characters

/-- A text that is a number and has no blanks around it. -/
inductive Literal : List Char → Prop where
  | blank : Literal []
  | decimal {negative : Bool} {d : Decimal} {text : List Char} (h : DecimalText negative d text) :
      Literal text
  | radix {base : Nat} {values : List Nat} {text : List Char} (h : RadixText base values text) :
      Literal text
  | infinity : Literal "Infinity".toList
  | plusInfinity : Literal "+Infinity".toList
  | minusInfinity : Literal "-Infinity".toList

theorem PointText.ne_nil {whole fraction body : List Char} (h : PointText whole fraction body) :
    body ≠ [] := by
  cases h with
  | whole hne => exact hne
  | point => simp

theorem DecimalText.ne_nil {negative : Bool} {d : Decimal} (h : DecimalText negative d text) :
    text ≠ [] := by
  cases h with
  | mk _ hpoint =>
      rw [List.append_assoc]
      simp [hpoint.ne_nil]

theorem readTrimmed_of_decimalText (h : DecimalText negative d text) :
    readTrimmed text = d.nearest negative := by
  rw [readTrimmed, if_neg h.ne_nil, readDecimal?_eq_some.mpr h]

/-- The text of a decimal is read as the number nearest to it. -/
theorem DecimalText.isNearest_read (h : DecimalText negative d text) :
    Binary64.IsNearest negative d.value (read (String.ofList text)) := by
  rw [read, String.toList_ofList, h.trimBlank_eq, readTrimmed_of_decimalText h]
  exact Decimal.isNearest_nearest negative d

theorem readTrimmed_of_radixText {base : Nat} {values : List Nat}
    (h : RadixText base values text) :
    readTrimmed text = values.foldl (pushDigit base) .zero := by
  have hne : text ≠ [] := by
    cases h with
    | mk hmark => cases hmark <;> simp
  rw [readTrimmed, if_neg hne, readDecimal?_of_radixText h]
  simp only [readMarked?_of_radixText h, Option.some_or, Option.getD_some]

/-- Numbers are not read as not-a-number. -/
theorem Literal.readTrimmed_ne_nan (h : Literal text) : readTrimmed text ≠ .nan := by
  cases h with
  | blank => decide
  | decimal h =>
      rw [readTrimmed_of_decimalText h]
      exact (Decimal.isNearest_nearest _ _).ne_nan
  | radix h =>
      obtain ⟨_, _, -, -, -, hnearest⟩ := isNearest_foldl_pushDigit h
      rw [readTrimmed_of_radixText h]
      exact hnearest.ne_nan
  | infinity => decide
  | plusInfinity => decide
  | minusInfinity => decide

theorem literal_of_readInfinity? {number : Binary64} (h : readInfinity? text = some number) :
    Literal text := by
  rw [readInfinity?] at h
  split at h
  · rename_i heq
    rcases heq with rfl | rfl
    · exact .infinity
    · exact .plusInfinity
  · split at h
    · rename_i heq
      rw [heq]
      exact .minusInfinity
    · cases h

/-- What is no number is read as not-a-number. -/
theorem readTrimmed_of_not_literal (h : ¬ Literal text) : readTrimmed text = .nan := by
  have hne : text ≠ [] := by
    rintro rfl
    exact h .blank
  have hdecimal : readDecimal? text = none := by
    refine Option.eq_none_iff_forall_ne_some.mpr fun parsed hparsed => ?_
    exact h (.decimal (readDecimal?_eq_some.mp hparsed))
  have hmarked : readMarked? text = none := by
    refine Option.eq_none_iff_forall_ne_some.mpr fun number hnumber => ?_
    obtain ⟨base, values, hradix⟩ := exists_radixText hnumber
    exact h (.radix hradix)
  have hinfinity : readInfinity? text = none :=
    Option.eq_none_iff_forall_ne_some.mpr fun number hnumber =>
      h (literal_of_readInfinity? hnumber)
  rw [readTrimmed, if_neg hne, hdecimal]
  simp only [hmarked, hinfinity, Option.none_or, Option.getD_none]

/-- A text is read as not-a-number exactly when it is no literal without the blanks around it.
These blanks do not matter, and a decimal is read as the number nearest to it, a tie going to
the even one and a number beyond the range to infinity. -/
theorem read_grammar (text : String) :
    TrimsTo text.toList (trimBlank text.toList) ∧
    (read text = .nan ↔ ¬ Literal (trimBlank text.toList)) ∧
    read text = read (String.ofList (trimBlank text.toList)) ∧
    ∀ negative d, DecimalText negative d (trimBlank text.toList) →
      Binary64.IsNearest negative d.value (read text) := by
  refine ⟨trimsTo_trimBlank _, ⟨?_, readTrimmed_of_not_literal⟩, ?_, ?_⟩
  · intro hnan hliteral
    exact hliteral.readTrimmed_ne_nan hnan
  · rw [read, read, String.toList_ofList, trimBlank_trimBlank]
  · intro negative d hdecimal
    rw [read, readTrimmed_of_decimalText hdecimal]
    exact Decimal.isNearest_nearest negative d

/-- A decimal between a tabulator and a byte order mark. -/
theorem read_grammar_padded :
    DecimalText true ⟨125, -2⟩ (trimBlank "\t-12.5E-1\uFEFF".toList) ∧
    Binary64.IsNearest true (Decimal.value ⟨125, -2⟩) (read "\t-12.5E-1\uFEFF") ∧
    read "\t-12.5E-1\uFEFF" ≠ .nan := by
  have htext : DecimalText true ⟨125, -2⟩ (trimBlank "\t-12.5E-1\uFEFF".toList) :=
    readDecimal?_eq_some.mp (by decide)
  obtain ⟨-, hnan, -, hnearest⟩ := read_grammar "\t-12.5E-1\uFEFF"
  exact ⟨htext, hnearest _ _ htext, fun h => hnan.mp h (.decimal htext)⟩

end Numeral

end WorkflowExpr
