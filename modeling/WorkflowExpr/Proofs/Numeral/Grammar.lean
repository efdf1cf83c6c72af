import Mathlib.Data.List.TakeDrop
import Mathlib.Data.List.TakeWhile
import WorkflowExpr.Numeral.Read

/-!
The grammar of decimals. A decimal has an optional sign, digits with an optional point before,
behind or among them, and an optional exponent with a sign of its own. The reader takes exactly
the texts of this grammar for decimals and gives each the number that its digits and exponent
say.
-/

namespace WorkflowExpr.Numeral

def Digits (text : List Char) : Prop := ∀ c ∈ text, c.isDigit = true

/-- An optional sign, true for minus. -/
inductive SignText : Bool → List Char → Prop where
  | none : SignText false []
  | plus : SignText false ['+']
  | minus : SignText true ['-']

/-- Digits before and behind a point. Without digits behind it the point can be left out, and
one of the two sides has digits. -/
inductive PointText : List Char → List Char → List Char → Prop where
  | whole {whole : List Char} (nonempty : whole ≠ []) : PointText whole [] whole
  | point {whole fraction : List Char} (nonempty : whole ≠ [] ∨ fraction ≠ []) :
      PointText whole fraction (whole ++ '.' :: fraction)

/-- An optional exponent, which is zero if it is left out. -/
inductive ExponentText : Int → List Char → Prop where
  | none : ExponentText 0 []
  | marked {mark : Char} {negative : Bool} {sign digits : List Char}
      (mark_eq : mark = 'e' ∨ mark = 'E') (signed : SignText negative sign)
      (nonempty : digits ≠ []) (digital : Digits digits) :
      ExponentText (if negative then -(ofDigits digits : Int) else ofDigits digits)
        (mark :: (sign ++ digits))

/-- A decimal and how it is written: sign, digits around a point, exponent. Digits behind the
point lower the exponent. -/
inductive DecimalText : Bool → Decimal → List Char → Prop where
  | mk {negative : Bool} {sign whole fraction body tail : List Char} {exponent : Int}
      (signed : SignText negative sign) (pointed : PointText whole fraction body)
      (digital : Digits (whole ++ fraction)) (scaled : ExponentText exponent tail) :
      DecimalText negative ⟨ofDigits (whole ++ fraction), exponent - fraction.length⟩
        (sign ++ body ++ tail)

variable {negative : Bool} {sign whole fraction body tail text rest digits : List Char}
  {exponent : Int} {d : Decimal}

theorem digits_append : Digits (whole ++ fraction) ↔ Digits whole ∧ Digits fraction := by
  rw [Digits, List.forall_mem_append]
  exact Iff.rfl

section Signs

theorem readSign_append (hsign : SignText negative sign)
    (hrest : ∀ c ∈ rest.head?, c ≠ '-' ∧ c ≠ '+') : readSign (sign ++ rest) = (negative, rest) := by
  cases hsign with
  | none =>
      cases rest with
      | nil => rfl
      | cons c rest =>
          obtain ⟨hminus, hplus⟩ := hrest c rfl
          rw [List.nil_append, readSign]
          · rintro _ ⟨⟩
            exact hminus rfl
          · rintro _ ⟨⟩
            exact hplus rfl
  | plus => rfl
  | minus => rfl

/-- Every text has a sign in front, if only the empty one. -/
theorem exists_sign (text : List Char) :
    ∃ sign, SignText (readSign text).1 sign ∧ text = sign ++ (readSign text).2 := by
  unfold readSign
  split
  · exact ⟨_, .minus, rfl⟩
  · exact ⟨_, .plus, rfl⟩
  · exact ⟨_, .none, rfl⟩

end Signs

section Spans

/-- Digits are taken off up to something that is no digit. -/
theorem span_digits (hdigits : Digits digits) (hrest : ∀ c ∈ rest.head?, c.isDigit = false) :
    (digits ++ rest).span Char.isDigit = (digits, rest) := by
  have hnone : rest.takeWhile Char.isDigit = [] ∧ rest.dropWhile Char.isDigit = rest := by
    cases rest with
    | nil => exact ⟨rfl, rfl⟩
    | cons c rest => simp [hrest c rfl]
  rw [List.span_eq_takeWhile_dropWhile, List.takeWhile_append_of_pos hdigits,
    List.dropWhile_append_of_pos hdigits, hnone.1, hnone.2, List.append_nil]

/-- What is taken off a text are digits. -/
theorem span_split (text : List Char) :
    Digits (text.span Char.isDigit).1 ∧
      text = (text.span Char.isDigit).1 ++ (text.span Char.isDigit).2 := by
  rw [List.span_eq_takeWhile_dropWhile]
  exact ⟨fun _ hc => List.mem_takeWhile_imp hc, List.takeWhile_append_dropWhile.symm⟩

end Spans

section Exponents

theorem ne_sign_of_isDigit {c : Char} (h : c.isDigit = true) : c ≠ '-' ∧ c ≠ '+' := by
  constructor <;> (rintro rfl; revert h; decide)

theorem Digits.head_ne_sign (h : Digits digits) : ∀ c ∈ digits.head?, c ≠ '-' ∧ c ≠ '+' :=
  fun _ hc => ne_sign_of_isDigit (h _ (List.mem_of_mem_head? hc))

theorem readExponent?_cons (mark : Char) (rest : List Char) :
    readExponent? (mark :: rest) =
      if (mark = 'e' ∨ mark = 'E') ∧ (readSign rest).2 ≠ [] ∧
          (readSign rest).2.all Char.isDigit then
        some (if (readSign rest).1 then -(ofDigits (readSign rest).2 : Int)
          else ofDigits (readSign rest).2)
      else none := (rfl)

/-- An exponent is read exactly from the texts that write it. -/
theorem readExponent?_eq_some :
    readExponent? text = some exponent ↔ ExponentText exponent text := by
  constructor
  · intro h
    cases text with
    | nil =>
        obtain rfl : 0 = exponent := Option.some.inj h
        exact .none
    | cons mark rest =>
        obtain ⟨sign, hsign, hrest⟩ := exists_sign rest
        rw [readExponent?_cons] at h
        generalize readSign rest = signed at h hsign hrest
        split at h
        · rename_i hread
          obtain ⟨hmark, hne, hdigits⟩ := hread
          cases h
          subst hrest
          exact .marked hmark hsign hne (List.all_eq_true.mp hdigits)
        · cases h
  · intro h
    cases h with
    | none => rfl
    | @marked mark negative sign digits hmark hsign hne hdigits =>
        rw [readExponent?_cons, readSign_append hsign hdigits.head_ne_sign]
        exact if_pos ⟨hmark, hne, List.all_eq_true.mpr hdigits⟩

/-- An exponent neither continues digits nor starts with a point. -/
theorem ExponentText.head (h : ExponentText exponent tail) :
    ∀ c ∈ tail.head?, c.isDigit = false ∧ c ≠ '.' := by
  cases h with
  | none =>
      rintro c ⟨⟩
  | marked hmark hsign hne hdigits =>
      rintro c ⟨⟩
      rcases hmark with rfl | rfl <;> decide

end Exponents

section Decimals

/-- Digits around a point are taken apart, whatever exponent follows. -/
theorem readPoint_of_pointText (hpoint : PointText whole fraction body)
    (hdigits : Digits (whole ++ fraction)) (htail : ∀ c ∈ tail.head?, c.isDigit = false ∧ c ≠ '.') :
    ∃ mid, (body ++ tail).span Char.isDigit = (whole, mid) ∧
      readFraction mid = (fraction, tail) := by
  have hstop : ∀ c ∈ tail.head?, c.isDigit = false := fun c hc => (htail c hc).1
  obtain ⟨hwhole, hfraction⟩ := digits_append.mp hdigits
  cases hpoint with
  | whole =>
      refine ⟨tail, span_digits hwhole hstop, ?_⟩
      cases tail with
      | nil => rfl
      | cons c tail =>
          rw [readFraction]
          rintro _ ⟨⟩
          exact (htail _ rfl).2 rfl
  | point =>
      refine ⟨'.' :: (fraction ++ tail), ?_, span_digits hfraction hstop⟩
      rw [List.append_assoc, List.cons_append]
      refine span_digits hwhole ?_
      rintro c ⟨⟩
      rfl

/-- What is taken apart around a point is written so. -/
theorem pointText_of_readPoint {mid : List Char} (hspan : text.span Char.isDigit = (whole, mid))
    (hfraction : readFraction mid = (fraction, tail)) (hne : ¬(whole = [] ∧ fraction = [])) :
    Digits (whole ++ fraction) ∧ ∃ body, PointText whole fraction body ∧ text = body ++ tail := by
  obtain ⟨hwhole, htext⟩ := span_split text
  rw [hspan] at hwhole htext
  unfold readFraction at hfraction
  split at hfraction
  · rename_i after
    obtain ⟨hdigits, hafter⟩ := span_split after
    rw [hfraction] at hdigits hafter
    refine ⟨digits_append.mpr ⟨hwhole, hdigits⟩, _, .point (not_and_or.mp hne), ?_⟩
    rw [htext, hafter, List.append_assoc, List.cons_append]
  · cases hfraction
    refine ⟨digits_append.mpr ⟨hwhole, by rintro c ⟨⟩⟩, _, .whole fun h => hne ⟨h, rfl⟩, htext⟩

theorem PointText.head_ne_sign (h : PointText whole fraction body)
    (hdigits : Digits (whole ++ fraction)) : ∀ c ∈ (body ++ tail).head?, c ≠ '-' ∧ c ≠ '+' := by
  cases h with
  | whole hne =>
      obtain ⟨c, whole, rfl⟩ := List.exists_cons_of_ne_nil hne
      rintro _ ⟨⟩
      exact ne_sign_of_isDigit (hdigits c List.mem_cons_self)
  | point hne =>
      cases whole with
      | nil =>
          rintro _ ⟨⟩
          decide
      | cons c whole =>
          rintro _ ⟨⟩
          exact ne_sign_of_isDigit (hdigits c List.mem_cons_self)

theorem PointText.nonempty (h : PointText whole fraction body) : ¬(whole = [] ∧ fraction = []) := by
  cases h with
  | whole hne => exact fun h => hne h.1
  | point hne => exact not_and_or.mpr hne

/-- A decimal is read exactly from the texts that write it. -/
theorem readDecimal?_eq_some :
    readDecimal? text = some (negative, d) ↔ DecimalText negative d text := by
  constructor
  · intro h
    obtain ⟨sign, hsign, htext⟩ := exists_sign text
    rw [readDecimal?] at h
    generalize readSign text = signed at h hsign htext
    generalize hspan : signed.2.span Char.isDigit = spanned at h
    obtain ⟨whole, mid⟩ := spanned
    generalize hfraction : readFraction mid = parted at h
    obtain ⟨fraction, tail⟩ := parted
    simp only [hspan, hfraction] at h
    split at h
    · cases h
    · rename_i hne
      obtain ⟨exponent, hexponent, hparts⟩ := Option.map_eq_some_iff.mp h
      obtain ⟨hdigits, body, hpoint, hbody⟩ := pointText_of_readPoint hspan hfraction hne
      cases hparts
      rw [htext, hbody, ← List.append_assoc]
      exact .mk hsign hpoint hdigits (readExponent?_eq_some.mp hexponent)
  · intro h
    cases h with
    | @mk sign whole fraction body tail exponent hsign hpoint hdigits hexponent =>
        obtain ⟨mid, hspan, hfraction⟩ :=
          readPoint_of_pointText hpoint hdigits hexponent.head
        rw [readDecimal?, List.append_assoc, readSign_append hsign (hpoint.head_ne_sign hdigits)]
        simp only [hspan, hfraction, if_neg hpoint.nonempty, readExponent?_eq_some.mpr hexponent,
          Option.map_some]

end Decimals

end WorkflowExpr.Numeral
