import WorkflowExpr.Json.Reader
import WorkflowExpr.Json.Writer

/-!
Quoted strings read back. Each character is written as an escape or as itself, and the reader
takes exactly that much for it, so that what follows the closing quote is left over.
-/

namespace WorkflowExpr.Json.Reader

theorem digitValue?_digitChar {n : Nat} (h : n < 16) :
    Text.digitValue? 16 (Nat.digitChar n) = some n := by
  revert n
  decide

theorem length_le_byteCount (text : List Char) : text.length ≤ byteCount text := by
  induction text with
  | nil => exact Nat.le_refl 0
  | cons c rest ih =>
      have hsize : 0 < c.utf8Size := Char.utf8Size_pos c
      have hcount : byteCount (c :: rest) = c.utf8Size + byteCount rest := rfl
      rw [List.length_cons, hcount]
      omega

/-- Four characters that are digits give the number they write. -/
theorem readHex_of_digits {m n k l : Nat} {w x y z : Char}
    (hw : Text.digitValue? 16 w = some m) (hx : Text.digitValue? 16 x = some n)
    (hy : Text.digitValue? 16 y = some k) (hz : Text.digitValue? 16 z = some l)
    (rest : List Char) :
    readHex (w :: x :: y :: z :: rest) = .ok (((m * 16 + n) * 16 + k) * 16 + l, rest) := by
  have hlength := length_le_byteCount (w :: x :: y :: z :: rest)
  simp only [List.length_cons] at hlength
  have henough : ¬ byteCount (w :: x :: y :: z :: rest) < 4 := by omega
  rw [readHex, if_neg henough]
  simp [hw, hx, hy, hz]

/-- The hexadecimal digits of a control character give it back. -/
theorem readHexEscape_control {n : Nat} (h : n < 0x20) (rest : List Char) :
    readHexEscape ('0' :: '0' :: Nat.digitChar (n / 16) :: Nat.digitChar (n % 16) :: rest) =
      .ok (Char.ofNat n, rest) := by
  have hzero : Text.digitValue? 16 '0' = some 0 := by decide
  have hhigh := digitValue?_digitChar (n := n / 16) (by omega)
  have hlow := digitValue?_digitChar (n := n % 16) (by omega)
  have hunit : ((0 * 16 + 0) * 16 + n / 16) * 16 + n % 16 = n := by omega
  have hread := readHex_of_digits hzero hzero hhigh hlow rest
  rw [hunit] at hread
  have htrailing : isTrailing n = false := by simp [isTrailing]; omega
  have hleading : isLeading n = false := by simp [isLeading]; omega
  rw [readHexEscape, hread]
  simp [bind, Except.bind, htrailing, hleading]
  rfl

theorem readChars_of_readEscape {c : Char} {text rest : List Char} (bound : Nat)
    (h : readEscape text = .ok (c, rest)) :
    readChars (bound + 1) ('\\' :: text) =
      (do let (cs, rest) ← readChars bound rest; return (c :: cs, rest)) := by
  rw [readChars, h]
  rfl

/-- A written character is read as one character. -/
theorem readChars_escapeChar (bound : Nat) (c : Char) (text : List Char) :
    readChars (bound + 1) (escapeChar c ++ text) =
      (do let (cs, rest) ← readChars bound text; return (c :: cs, rest)) := by
  unfold escapeChar
  -- The seven escapes of a single letter.
  iterate 7
    split
    · rename_i h
      subst h
      exact readChars_of_readEscape bound rfl
  split
  · rename_i hquote hback _ _ _ _ _ hcontrol
    have hread := readHexEscape_control hcontrol text
    rw [Char.ofNat_toNat] at hread
    exact readChars_of_readEscape bound hread
  · rename_i hquote hback _ _ _ _ _ hplain
    rw [List.singleton_append, readChars, if_neg hplain]
    · exact hquote
    · exact hback

theorem readChars_flatMap_escapeChar {cs : List Char} {bound : Nat} (h : cs.length < bound)
    (rest : List Char) :
    readChars bound (cs.flatMap escapeChar ++ '"' :: rest) = .ok (cs, rest) := by
  induction cs generalizing bound with
  | nil =>
      obtain ⟨k, rfl⟩ := Nat.exists_eq_succ_of_ne_zero (Nat.ne_of_gt h)
      rfl
  | cons c cs ih =>
      obtain ⟨k, rfl⟩ := Nat.exists_eq_succ_of_ne_zero (Nat.ne_of_gt (Nat.zero_lt_of_lt h))
      rw [List.flatMap_cons, List.append_assoc, readChars_escapeChar,
        ih (Nat.lt_of_succ_lt_succ h)]
      rfl

theorem length_le_flatMap_escapeChar (cs : List Char) :
    cs.length ≤ (cs.flatMap escapeChar).length := by
  induction cs with
  | nil => exact Nat.le_refl 0
  | cons c cs ih =>
      have hone : 1 ≤ (escapeChar c).length := by
        unfold escapeChar
        repeat' split
        all_goals simp
      rw [List.flatMap_cons, List.length_append, List.length_cons]
      omega

/-- A written string is read back up to its closing quote. -/
theorem readString_escaped (s : String) (rest : List Char) :
    readString (s.toList.flatMap escapeChar ++ '"' :: rest) = .ok (s, rest) := by
  have hlength := length_le_flatMap_escapeChar s.toList
  have hbound : s.toList.length < (s.toList.flatMap escapeChar ++ '"' :: rest).length + 1 := by
    rw [List.length_append, List.length_cons]
    omega
  rw [readString, readChars_flatMap_escapeChar hbound]
  change Except.ok (String.ofList s.toList, rest) = _
  rw [String.ofList_toList]

end WorkflowExpr.Json.Reader
