import WorkflowExpr.Numeral.Write
import WorkflowExpr.Proofs.Binary64.RoundsTo
import WorkflowExpr.Proofs.Json.Decimals
import WorkflowExpr.Proofs.Numeral.Grammar

/-!
The text of a number with fifteen significant digits. The exact value is rounded once, and the
place of the first digit is taken after the rounding. Whatever digits and place come out of it,
the text is canonical, has the form that the place asks for, and writes the rounded value
exactly.
-/

namespace WorkflowExpr

namespace Decimal

/-- A decimal is a value rounded to a count of significant digits: a multiple of the power of ten
at the last of them that is no further away than half of that power, and an even multiple if
it is just as far. -/
inductive RoundsToDigits (count : Nat) (q : ℚ) (d : Decimal) : Prop where
  | mk {e : Int} {k : Nat} (leading : (10 : ℚ) ^ e ≤ q ∧ q < 10 ^ (e + 1))
      (multiple : d.value = k * 10 ^ (e - count + 1))
      (near : |d.value - q| ≤ 10 ^ (e - count + 1) / 2)
      (even_of_half : |d.value - q| = 10 ^ (e - count + 1) / 2 → k % 2 = 0) :
      RoundsToDigits count q d

namespace RoundsToDigits

variable {count : Nat} {q : ℚ} {d d' : Decimal}

/-- Of two neighbouring multiples halfway from the value only one is even. -/
theorem not_lt (h : RoundsToDigits count q d) (h' : RoundsToDigits count q d') :
    ¬ d.value < d'.value := by
  intro hlt
  obtain @⟨e, k, hleading, hmultiple, hnear, heven⟩ := h
  obtain @⟨e', k', hleading', hmultiple', hnear', heven'⟩ := h'
  have hless := (zpow_lt_zpow_iff_right₀ (by norm_num)).mp (hleading.1.trans_lt hleading'.2)
  have hless' := (zpow_lt_zpow_iff_right₀ (by norm_num)).mp (hleading'.1.trans_lt hleading.2)
  obtain rfl : e = e' := by omega
  generalize e - count + 1 = step at *
  have hpower : (0 : ℚ) < 10 ^ step := by positivity
  rw [hmultiple] at hlt hnear heven
  rw [hmultiple'] at hlt hnear' heven'
  have hk : k < k' := by exact_mod_cast lt_of_mul_lt_mul_right hlt hpower.le
  have hgap : (k + 1 : ℚ) * 10 ^ step ≤ k' * 10 ^ step :=
    mul_le_mul_of_nonneg_right (by exact_mod_cast hk) hpower.le
  have hlow := (abs_le.mp hnear).1
  have hhigh := (abs_le.mp hnear').2
  have hdown : (k : ℚ) * 10 ^ step - q = -(10 ^ step / 2) := by linarith
  have hup : (k' : ℚ) * 10 ^ step - q = 10 ^ step / 2 := by linarith
  have hnext : k' = k + 1 := by
    have hsame : (k' : ℚ) * 10 ^ step = (k + 1 : Nat) * 10 ^ step := by
      push_cast
      linarith
    exact_mod_cast mul_right_cancel₀ hpower.ne' hsame
  have hkeven := heven (by rw [hdown, abs_neg, abs_of_pos (by positivity)])
  have hkeven' := heven' (by rw [hup, abs_of_pos (by positivity)])
  omega

/-- A value is rounded to one number only. -/
theorem value_eq (h : RoundsToDigits count q d) (h' : RoundsToDigits count q d') :
    d.value = d'.value :=
  le_antisymm (le_of_not_gt (not_lt h' h)) (le_of_not_gt (not_lt h h'))

end RoundsToDigits

variable {n d count : Nat}

/-- A tie on a grid of steps goes to the even multiple. -/
theorem roundSteps_even_of_half (hd : 0 < d) (step : Int)
    (h : |(roundQuotient .toEven (stepsOf n d step).1 (stepsOf n d step).2 : ℚ) * 10 ^ step -
      n / d| = 10 ^ step / 2) :
    roundQuotient .toEven (stepsOf n d step).1 (stepsOf n d step).2 % 2 = 0 := by
  have hpower : (0 : ℚ) < 10 ^ step := by positivity
  rw [abs_mul_step_sub, eq_div_iff two_ne_zero, mul_right_comm, mul_eq_right₀ hpower.ne'] at h
  exact roundQuotient_even_of_half (stepsOf_pos hd step) (eq_one_div_of_mul_eq_one_left h)

theorem roundsToDigits_roundSignificant (hn : 0 < n) (hd : 0 < d) (count : Nat) :
    RoundsToDigits (count + 1) (n / d) (roundSignificant .toEven (count + 1) n d) := by
  have hvalue := value_roundSignificant .toEven hn hd count
  refine .mk (quotientExponent_spec hn hd) hvalue ?_ ?_ <;> rw [hvalue]
  · exact abs_roundSteps_sub_le .toEven n hd _
  · exact roundSteps_even_of_half hd _

end Decimal

namespace Numeral

variable {x : Int} {n : Nat} {negative : Bool} {d : Decimal}
  {digits sign whole fraction body text : List Char}

section Digits

/-- Digits with a zero neither in front nor at the end. -/
structure Significant (digits : List Char) : Prop where
  digital : Digits digits
  nonempty : digits ≠ []
  head_ne : '0' ∉ digits.head?
  last_ne : '0' ∉ digits.getLast?

theorem significant_toDigits (h : n % 10 ≠ 0) : Significant (Nat.toDigits 10 n) where
  digital c hc := Nat.isDigit_of_mem_toDigits (by decide) (by decide) hc
  nonempty := Nat.toDigits_ne_nil
  head_ne := by
    obtain ⟨c, digits, hdigits, hc⟩ := Json.Number.toDigits_eq_cons (by omega : 0 < n)
    rw [hdigits]
    exact fun hzero => hc (Option.some.inj hzero)
  last_ne := by
    have hlast : (Nat.toDigits 10 n).getLast? = some (Nat.digitChar (n % 10)) := by
      rcases Nat.lt_or_ge n 10 with hlt | hge
      · rw [Nat.toDigits_of_lt_base hlt, Nat.mod_eq_of_lt hlt, List.getLast?_singleton]
      · rw [Nat.toDigits_of_base_le (by decide) hge, List.getLast?_concat]
    rw [hlast]
    exact fun hzero => h (Nat.digitChar_eq_zero.mp (Option.some.inj hzero))

theorem digits_replicate_zero (k : Nat) : Digits (List.replicate k '0') := by
  intro c hc
  rw [List.eq_of_mem_replicate hc]
  rfl

theorem digits_zeros (before behind : Nat) (h : Digits digits) :
    Digits (List.replicate before '0' ++ digits ++ List.replicate behind '0') :=
  digits_append.mpr
    ⟨digits_append.mpr ⟨digits_replicate_zero before, h⟩, digits_replicate_zero behind⟩

/-- Zeros in front count nothing, and each one at the end counts ten times. -/
theorem ofDigits_zeros (before behind : Nat) (digits : List Char) :
    ofDigits (List.replicate before '0' ++ digits ++ List.replicate behind '0') =
      ofDigits digits * 10 ^ behind := by
  rw [ofDigits, Nat.ofDigitChars_append, Nat.ofDigitChars_append, Nat.ofDigitChars_replicate_zero,
    Nat.ofDigitChars_replicate_zero, Nat.mul_zero, Nat.mul_comm, ofDigits]

end Digits

section Forms

/-- Digits around a point, the first of them at the power of ten `x`: filled up with zeros to the
point, without a needless zero in front or behind, and without the point if nothing is
behind it. -/
inductive PlainText (digits : List Char) (x : Int) : List Char → Prop where
  | mk {whole fraction : List Char} {behind : Nat}
      (kept : whole ++ fraction =
        List.replicate (-x).toNat '0' ++ digits ++ List.replicate behind '0')
      (length_eq : whole.length = x.toNat + 1)
      (leading : '0' ∈ whole.head? → whole = ['0'])
      (last : '0' ∉ fraction.getLast?) :
      PlainText digits x (whole ++ if fraction = [] then [] else '.' :: fraction)

/-- Digits with a point behind the first, if there are more, and their power of ten with its
sign and at least two digits, without a needless zero among them. -/
inductive ScientificText (digits : List Char) (x : Int) : List Char → Prop where
  | mk {first : Char} {rest power : List Char} (kept : first :: rest = digits)
      (leading : first ≠ '0') (last : '0' ∉ rest.getLast?)
      (digital : Digits power) (exact : ofDigits power = x.natAbs)
      (wide : 2 ≤ power.length) (narrow : '0' ∈ power.head? → power.length = 2) :
      ScientificText digits x
        (first :: (if rest = [] then [] else '.' :: rest) ++
          'E' :: (if x < 0 then '-' else '+') :: power)

theorem PointText.of_fraction (hne : whole ≠ []) (fraction : List Char) :
    PointText whole fraction (whole ++ if fraction = [] then [] else '.' :: fraction) := by
  by_cases hfraction : fraction = []
  · rw [if_pos hfraction, List.append_nil, hfraction]
    exact .whole hne
  · rw [if_neg hfraction]
    exact .point (.inl hne)

/-- A plain text writes its digits, the first at the power of ten `x`. -/
theorem PlainText.decimalText (h : PlainText digits x body) (hdigits : Digits digits)
    (hsign : SignText negative sign) :
    ∃ d, DecimalText negative d (sign ++ body) ∧
      d.value = ofDigits digits * 10 ^ (x + 1 - digits.length) := by
  cases h with
  | @mk whole fraction behind hkept hlength =>
      have hne : whole ≠ [] := List.ne_nil_of_length_eq_add_one hlength
      have hdigital : Digits (whole ++ fraction) := hkept ▸ digits_zeros _ _ hdigits
      have htext := DecimalText.mk hsign (.of_fraction hne fraction) hdigital .none
      rw [List.append_nil] at htext
      refine ⟨_, htext, ?_⟩
      have hcount := congrArg List.length hkept
      simp only [List.length_append, List.length_replicate] at hcount
      have hexponent : x + 1 - digits.length = behind + (0 - fraction.length : Int) := by omega
      rw [Decimal.value, hkept, ofDigits_zeros, hexponent, zpow_add₀ (by norm_num), zpow_natCast,
        Nat.cast_mul, Nat.cast_pow, Nat.cast_ofNat, mul_assoc]

/-- A scientific text writes its digits, the first at the power of ten `x`. -/
theorem ScientificText.decimalText (h : ScientificText digits x body) (hdigits : Digits digits)
    (hsign : SignText negative sign) :
    ∃ d, DecimalText negative d (sign ++ body) ∧
      d.value = ofDigits digits * 10 ^ (x + 1 - digits.length) := by
  cases h with
  | @mk first rest power hkept hleading hlast hdigital hexact hwide hnarrow =>
      subst hkept
      have hpower : power ≠ [] := List.ne_nil_of_length_pos (by omega)
      have hexponent : ExponentText x ('E' :: (if x < 0 then '-' else '+') :: power) := by
        by_cases hneg : x < 0
        · have htext := ExponentText.marked (.inr rfl) .minus hpower hdigital
          have hx : -(x.natAbs : Int) = x := by omega
          rw [hexact, if_pos rfl, hx] at htext
          rw [if_pos hneg]
          exact htext
        · have htext := ExponentText.marked (.inr rfl) .plus hpower hdigital
          have hx : (x.natAbs : Int) = x := by omega
          rw [hexact, if_neg (by decide), hx] at htext
          rw [if_neg hneg]
          exact htext
      have htext := DecimalText.mk hsign (.of_fraction (List.cons_ne_nil first []) rest)
        hdigits hexponent
      rw [List.append_assoc, List.singleton_append] at htext
      refine ⟨_, htext, ?_⟩
      have hplace : x + 1 - (first :: rest).length = x - rest.length := by
        rw [List.length_cons]
        omega
      rw [hplace]
      rfl

theorem ScientificText.mark (h : ScientificText digits x body) : 'E' ∈ body := by
  cases h with
  | mk => exact List.mem_append_right _ List.mem_cons_self

/-- A text does not have both forms. -/
theorem PlainText.not_mark (h : PlainText digits x body) (hdigits : Digits digits) :
    'E' ∉ body := by
  cases h with
  | @mk whole fraction behind hkept =>
      obtain ⟨hwhole, hfraction⟩ := digits_append.mp (hkept ▸ digits_zeros _ _ hdigits)
      have hmark : ∀ {part}, Digits part → 'E' ∉ part := fun hpart hc => by
        simpa using hpart 'E' hc
      rw [List.mem_append, not_or]
      refine ⟨hmark hwhole, ?_⟩
      split
      · exact List.not_mem_nil
      · exact List.not_mem_cons_of_ne_of_not_mem (by decide) (hmark hfraction)

end Forms

section Layout

open DecimalLayout

theorem padded_spec {width : Nat} (hwidth : 0 < width) (n : Nat) :
    Digits (padded width n) ∧ ofDigits (padded width n) = n ∧ width ≤ (padded width n).length ∧
      ('0' ∈ (padded width n).head? → (padded width n).length = width) := by
  have hdigits : Digits (Nat.toDigits 10 n) :=
    fun c hc => Nat.isDigit_of_mem_toDigits (by decide) (by decide) hc
  have hlength : (padded width n).length = max width (Nat.toDigits 10 n).length := by
    rw [padded, List.length_append, List.length_replicate]
    omega
  refine ⟨?_, ?_, by omega, fun hzero => ?_⟩
  · exact digits_append.mpr ⟨digits_replicate_zero _, hdigits⟩
  · rw [padded, ofDigits, Nat.ofDigitChars_append, Nat.ofDigitChars_replicate_zero, Nat.mul_zero,
      Nat.ofDigitChars_ten_toDigits]
  · rcases Nat.lt_or_ge width (Nat.toDigits 10 n).length with hlt | hle
    rotate_left
    · omega
    · have hpos : 0 < n := by
        rw [Nat.pos_iff_ne_zero]
        rintro rfl
        rw [Nat.toDigits_zero, List.length_singleton] at hlt
        omega
      obtain ⟨c, digits, heq, hc⟩ := Json.Number.toDigits_eq_cons hpos
      rw [padded, Nat.sub_eq_zero_of_le hlt.le, List.replicate_zero, List.nil_append, heq] at hzero
      exact absurd (Option.some.inj hzero) hc

/-- Digits behind the point, after zeros. -/
theorem plainText_behind (h : Significant digits) (hneg : x < 0) :
    PlainText digits x ('0' :: '.' :: List.replicate (-x - 1).toNat '0' ++ digits) := by
  have hne : List.replicate (-x - 1).toNat '0' ++ digits ≠ [] :=
    List.append_ne_nil_of_right_ne_nil _ h.nonempty
  have hkept : ['0'] ++ (List.replicate (-x - 1).toNat '0' ++ digits) =
      List.replicate (-x).toNat '0' ++ digits ++ List.replicate 0 '0' := by
    have hcount : (-x).toNat = (-x - 1).toNat + 1 := by omega
    rw [hcount, List.replicate_zero, List.append_nil, List.replicate_succ, List.singleton_append,
      List.cons_append]
  have hlength : ['0'].length = x.toNat + 1 := by
    rw [List.length_singleton]
    omega
  have hlast : '0' ∉ (List.replicate (-x - 1).toNat '0' ++ digits).getLast? := by
    rw [List.getLast?_append_of_ne_nil _ h.nonempty]
    exact h.last_ne
  have htext := PlainText.mk hkept hlength (fun _ => rfl) hlast
  rwa [if_neg hne] at htext

/-- Digits before the point, filled up to it with zeros. -/
theorem plainText_filled (h : Significant digits) (hnonneg : 0 ≤ x)
    (hfits : digits.length ≤ x.toNat + 1) :
    PlainText digits x (digits ++ List.replicate (x.toNat + 1 - digits.length) '0') := by
  have hbefore : (-x).toNat = 0 := by omega
  have hkept : digits ++ List.replicate (x.toNat + 1 - digits.length) '0' ++ [] =
      List.replicate (-x).toNat '0' ++ digits ++
        List.replicate (x.toNat + 1 - digits.length) '0' := by
    rw [hbefore, List.append_nil, List.replicate_zero, List.nil_append]
  have hlength : (digits ++ List.replicate (x.toNat + 1 - digits.length) '0').length =
      x.toNat + 1 := by
    rw [List.length_append, List.length_replicate]
    omega
  have hleading : '0' ∉ (digits ++ List.replicate (x.toNat + 1 - digits.length) '0').head? := by
    rw [List.head?_append_of_ne_nil _ h.nonempty]
    exact h.head_ne
  have htext := PlainText.mk hkept hlength (fun hzero => absurd hzero hleading)
    (Option.not_mem_none '0')
  rwa [if_pos rfl, List.append_nil] at htext

/-- Digits on both sides of the point. -/
theorem plainText_parted (h : Significant digits) (hnonneg : 0 ≤ x)
    (hmore : ¬ digits.length ≤ x.toNat + 1) :
    PlainText digits x (digits.take (x.toNat + 1) ++ '.' :: digits.drop (x.toNat + 1)) := by
  have hbefore : (-x).toNat = 0 := by omega
  have hfraction : digits.drop (x.toNat + 1) ≠ [] := by
    rw [ne_eq, List.drop_eq_nil_iff]
    exact hmore
  have hkept : digits.take (x.toNat + 1) ++ digits.drop (x.toNat + 1) =
      List.replicate (-x).toNat '0' ++ digits ++ List.replicate 0 '0' := by
    rw [hbefore, List.take_append_drop, List.replicate_zero, List.append_nil, List.nil_append]
  have hlength : (digits.take (x.toNat + 1)).length = x.toNat + 1 := by
    rw [List.length_take]
    omega
  have hleading : '0' ∉ (digits.take (x.toNat + 1)).head? := by
    rw [List.head?_take, if_neg (Nat.succ_ne_zero _)]
    exact h.head_ne
  have hlast : '0' ∉ (digits.drop (x.toNat + 1)).getLast? := by
    rw [List.getLast?_drop, if_neg hmore]
    exact h.last_ne
  have htext := PlainText.mk hkept hlength (fun hzero => absurd hzero hleading) hlast
  rwa [if_neg hfraction] at htext

/-- Digits without an exponent have the plain form. -/
theorem plainText_writePlain (h : Significant digits) (x : Int) :
    PlainText digits x (generalLayout.writePlain digits x) := by
  have hwhole : generalLayout.keepsFraction = false := rfl
  rw [DecimalLayout.writePlain, pointed, hwhole, if_neg Bool.false_ne_true, List.append_nil]
  split
  · rename_i hneg
    exact plainText_behind h hneg
  · rename_i hnonneg
    split
    · rename_i hfits
      exact plainText_filled h (Int.not_lt.mp hnonneg) hfits
    · rename_i hmore
      exact plainText_parted h (Int.not_lt.mp hnonneg) hmore

/-- Digits with an exponent have the scientific form. -/
theorem scientificText_writeScientific (h : Significant digits) (x : Int) :
    ScientificText digits x (generalLayout.writeScientific digits x) := by
  obtain ⟨hdigital, hexact, hwide, hnarrow⟩ := padded_spec Nat.two_pos x.natAbs
  obtain ⟨first, rest, rfl⟩ := List.exists_cons_of_ne_nil h.nonempty
  have hrest : '0' ∉ rest.getLast? := by
    intro hzero
    refine h.last_ne ?_
    rw [List.getLast?_cons, Option.mem_def.mp hzero]
    rfl
  have hfirst : first ≠ '0' := fun hzero => h.head_ne (congrArg some hzero)
  have htext := ScientificText.mk rfl hfirst hrest hdigital hexact hwide hnarrow
  have hshort : (first :: rest).length ≤ 1 ↔ rest = [] := by
    rw [List.length_cons, ← List.length_eq_zero_iff]
    omega
  rw [writeScientific, if_congr hshort rfl rfl]
  exact htext

end Layout

section Splits

/-- The two parts of a text at an index, which must not be beyond its end. -/
def splitAt? (index : Nat) (text : List Char) : Option (List Char × List Char) :=
  if index ≤ text.length then some (text.splitAt index) else none

/-- The text of a decimal, from splits that are checked. -/
def writeChecked? (layout : DecimalLayout) (d : Decimal) : Option (List Char) := do
  let digits := Nat.toDigits 10 d.digits
  let leading := d.exponent + digits.length - 1
  let (first, rest) ← splitAt? 1 digits
  if layout.isPlain leading then
    if 0 ≤ leading ∧ leading.toNat + 1 < digits.length then
      let (whole, fraction) ← splitAt? (leading.toNat + 1) digits
      some (whole ++ '.' :: fraction)
    else some (layout.writePlain digits leading)
  else
    some (first ++ (if rest = [] then [] else '.' :: rest) ++
      layout.exponentMark :: (if leading < 0 then '-' else '+') ::
        DecimalLayout.padded layout.exponentWidth leading.natAbs)

theorem splitAt?_of_le {index : Nat} (h : index ≤ text.length) :
    splitAt? index text = some (text.take index, text.drop index) := by
  rw [splitAt?, if_pos h, List.splitAt_eq]

/-- No split is beyond the end of the digits. -/
theorem writeChecked?_eq_some (layout : DecimalLayout) (d : Decimal) :
    writeChecked? layout d = some (layout.write d) := by
  have hfirst : 1 ≤ (Nat.toDigits 10 d.digits).length := Nat.length_toDigits_pos
  rw [writeChecked?, DecimalLayout.write]
  generalize Nat.toDigits 10 d.digits = digits at *
  generalize d.exponent + digits.length - 1 = leading
  simp only [splitAt?_of_le hfirst, Option.bind_eq_bind, Option.bind_some]
  split
  · split
    · rename_i hpoint
      rw [splitAt?_of_le hpoint.2.le, Option.bind_some, DecimalLayout.writePlain,
        if_neg (Int.not_lt.mpr hpoint.1), DecimalLayout.pointed, if_neg (Nat.not_le.mpr hpoint.2)]
    · rfl
  · have hshort : digits.drop 1 = [] ↔ digits.length ≤ 1 := List.drop_eq_nil_iff
    rw [DecimalLayout.writeScientific, if_congr hshort rfl rfl]

end Splits

section Main

variable {m : Magnitude}

theorem signText_signText (negative : Bool) : SignText negative (signText negative) := by
  cases negative with
  | false => exact .none
  | true => exact .minus

/-- The sign of a decimal shows at the head of its text. -/
theorem DecimalText.head_eq_minus (h : DecimalText negative d text) :
    text.head? = some '-' ↔ negative = true := by
  cases h with
  | @mk sign whole fraction body tail exponent hsign hpoint hdigits =>
      rw [List.append_assoc]
      cases hsign with
      | none =>
          have hhead : ∀ c ∈ (body ++ tail).head?, c ≠ '-' ∧ c ≠ '+' :=
            hpoint.head_ne_sign hdigits
          exact ⟨fun h => absurd rfl (hhead '-' h).1, fun h => absurd h (by decide)⟩
      | plus =>
          exact ⟨fun h => absurd (Option.some.inj h) (by decide), fun h => absurd h (by decide)⟩
      | minus => exact ⟨fun _ => rfl, fun _ => rfl⟩

theorem isNegative_finite (hm : 0 < m.units) :
    (Binary64.finite negative m).isNegative = negative := by
  rw [Binary64.isNegative_of_position? rfl]
  cases negative with
  | false => exact decide_eq_false (Int.not_lt.mpr (Int.natCast_nonneg _))
  | true => exact decide_eq_true (Int.neg_neg_of_pos (Int.natCast_pos.mpr hm))

/-- The form of a decimal in normal form, from the place of its first digit. -/
theorem form_write (h : d.digits % 10 ≠ 0) :
    (d.leadingExponent < -4 ∨ 15 ≤ d.leadingExponent →
      ScientificText (Nat.toDigits 10 d.digits) d.leadingExponent (generalLayout.write d)) ∧
    (-4 ≤ d.leadingExponent ∧ d.leadingExponent < 15 →
      PlainText (Nat.toDigits 10 d.digits) d.leadingExponent (generalLayout.write d)) := by
  have hdigits := significant_toDigits h
  have hcount := Json.digitCount_of_pos (by omega : 0 < d.digits)
  have hplain : generalLayout.isPlain d.leadingExponent = true ↔
      -4 ≤ d.leadingExponent ∧ d.leadingExponent < 15 := by
    rw [generalLayout, Bool.and_eq_true, decide_eq_true_eq, decide_eq_true_eq]
    exact Iff.rfl
  have hwrite : generalLayout.write d = if generalLayout.isPlain d.leadingExponent then
      generalLayout.writePlain (Nat.toDigits 10 d.digits) d.leadingExponent
      else generalLayout.writeScientific (Nat.toDigits 10 d.digits) d.leadingExponent := by
    rw [DecimalLayout.write, Decimal.leadingExponent, hcount]
  rw [hwrite]
  constructor <;> intro hplace
  · rw [if_neg (by rw [hplain]; omega)]
    exact scientificText_writeScientific hdigits _
  · rw [if_pos (hplain.mpr hplace)]
    exact plainText_writePlain hdigits _

/-- The text of a decimal in normal form writes it. -/
theorem decimalText_write (h : d.digits % 10 ≠ 0) (negative : Bool) :
    ∃ read, DecimalText negative read (signText negative ++ generalLayout.write d) ∧
      read.value = d.value := by
  have hdigits := (significant_toDigits h).digital
  have hcount := Json.digitCount_of_pos (by omega : 0 < d.digits)
  have hexponent : d.leadingExponent + 1 - (Nat.toDigits 10 d.digits).length = d.exponent := by
    rw [Decimal.leadingExponent, hcount]
    omega
  have hvalue : (ofDigits (Nat.toDigits 10 d.digits) : ℚ) *
      10 ^ (d.leadingExponent + 1 - (Nat.toDigits 10 d.digits).length) = d.value := by
    rw [hexponent, ofDigits, Nat.ofDigitChars_ten_toDigits, Decimal.value]
  obtain ⟨hscientific, hplain⟩ := form_write h
  rw [← hvalue]
  by_cases hplace : -4 ≤ d.leadingExponent ∧ d.leadingExponent < 15
  · exact (hplain hplace).decimalText hdigits (signText_signText negative)
  · exact (hscientific (by omega)).decimalText hdigits (signText_signText negative)

/-- The text of a number other than zero. The exact value is rounded to fifteen significant
digits, and the text writes the one number that comes out, with a minus below zero only, in
canonical digits, and with a power of ten just where the first digit stands outside the middle
range. No split on the way is beyond the end of the digits. -/
theorem write_significant (hm : 0 < m.units) (negative : Bool) :
    ∃ (d : Decimal) (x : Int) (body : List Char),
      d.RoundsToDigits significantDigits (m.units / Magnitude.unitsPerOne) ∧
      (∀ r : Decimal, r.RoundsToDigits significantDigits (m.units / Magnitude.unitsPerOne) →
        r.value = d.value) ∧
      ((10 : ℚ) ^ x ≤ d.value ∧ d.value < 10 ^ (x + 1)) ∧
      (d.digits < 10 ^ significantDigits ∧ d.digits % 10 ≠ 0) ∧
      (write (.finite negative m)).toList = signText negative ++ body ∧
      ((write (.finite negative m)).toList.head? = some '-' ↔
        (Binary64.finite negative m).isNegative = true) ∧
      (∃ read : Decimal, DecimalText negative read (write (.finite negative m)).toList ∧
        read.value = d.value) ∧
      (ScientificText (Nat.toDigits 10 d.digits) x body ↔ x < -4 ∨ 15 ≤ x) ∧
      (PlainText (Nat.toDigits 10 d.digits) x body ↔ -4 ≤ x ∧ x < 15) ∧
      writeChecked? generalLayout d = some body := by
  obtain ⟨-, hpos, hmost, hlast⟩ :=
    Decimal.roundSignificant_spec .toEven hm Magnitude.unitsPerOne_pos 14
  have hrounds := Decimal.roundsToDigits_roundSignificant hm Magnitude.unitsPerOne_pos 14
  have hwrite : (write (.finite negative m)).toList = signText negative ++
      generalLayout.write (.roundSignificant .toEven 15 m.units Magnitude.unitsPerOne) := by
    rw [write, if_neg hm.ne', String.toList_ofList, significantDigits]
  generalize Decimal.roundSignificant .toEven 15 m.units Magnitude.unitsPerOne = d at *
  have hfew : d.digits < 10 ^ significantDigits := by
    refine Nat.lt_of_le_of_ne hmost fun hpower => hlast ?_
    rw [hpower]
    rfl
  have hdigits := (significant_toDigits hlast).digital
  obtain ⟨hscientific, hplain⟩ := form_write hlast
  obtain ⟨read, htext, hvalue⟩ := decimalText_write hlast negative
  rw [hwrite, isNegative_finite hm]
  refine ⟨d, d.leadingExponent, generalLayout.write d, hrounds, fun r hr => hr.value_eq hrounds,
    Decimal.leadingExponent_spec hpos, ⟨hfew, hlast⟩, rfl, htext.head_eq_minus,
    ⟨read, htext, hvalue⟩, ⟨?_, hscientific⟩, ⟨?_, hplain⟩, writeChecked?_eq_some generalLayout d⟩
  · intro hform
    by_contra hplace
    exact (hplain (by omega)).not_mark hdigits hform.mark
  · intro hform
    by_contra hplace
    exact hform.not_mark hdigits (hscientific (by omega)).mark

/-- The number nearest to `999999999999999.9`. -/
def belowPower15 : Magnitude := ⟨7999999999999999 <<< 1071, by decide +kernel⟩

/-- Rounding can carry into the next decade, and then the text has the form of that decade. -/
theorem write_significant_carried :
    0 < belowPower15.units ∧ write (.finite true belowPower15) = "-1E+15" ∧
    ∃ d read : Decimal,
      d.RoundsToDigits significantDigits (belowPower15.units / Magnitude.unitsPerOne) ∧
      DecimalText true read "-1E+15".toList ∧ read.value = d.value := by
  have hpos : 0 < belowPower15.units := by decide +kernel
  have hwrite : write (.finite true belowPower15) = "-1E+15" := by decide +kernel
  obtain ⟨d, -, -, hrounds, -, -, -, -, -, ⟨read, htext, hvalue⟩, -⟩ := write_significant hpos true
  rw [hwrite] at htext
  exact ⟨hpos, hwrite, d, read, hrounds, htext, hvalue⟩

end Main

end Numeral

end WorkflowExpr
