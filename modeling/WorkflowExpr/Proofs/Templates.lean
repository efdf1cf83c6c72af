import Mathlib.Algebra.Group.Nat.Defs
import WorkflowExpr.Proofs.Calls

/-!
The grammar of templates. A template can be filled exactly when it is a sequence of tokens:
characters that are no braces, doubled braces, and numbers of arguments in braces. The filled
text is then what the tokens stand for, one after the other, and an argument is put in as it
is. Everything else is refused.
-/

namespace WorkflowExpr

namespace Template

/-- A part of a template that is read as a whole: a character that is no brace, a doubled brace,
or the number of an argument in braces, in as many digits as one likes. -/
inductive Token (arguments : List String) where
  | char (c : Char) (notOpening : c ≠ '\x7b') (notClosing : c ≠ '\x7d')
  | opening
  | closing
  | placeholder (digits : List Char) (nonempty : digits ≠ [])
      (digital : ∀ d ∈ digits, d.isDigit = true)
      (known : Nat.ofDigitChars 10 digits 0 < arguments.length)

variable {arguments : List String}

namespace Token

def text : Token arguments → List Char
  | .char c _ _ => [c]
  | .opening => ['\x7b', '\x7b']
  | .closing => ['\x7d', '\x7d']
  | .placeholder digits _ _ _ => '\x7b' :: digits ++ ['\x7d']

def meaning : Token arguments → List Char
  | .char c _ _ => [c]
  | .opening => ['\x7b']
  | .closing => ['\x7d']
  | .placeholder _ _ _ known => (arguments.get ⟨_, known⟩).toList

end Token

theorem not_brace_of_isDigit {d : Char} (hd : d.isDigit = true) : d ≠ '\x7b' ∧ d ≠ '\x7d' := by
  constructor <;> (rintro rfl; revert hd; decide)

theorem bind_eq_ok {α β : Type} {x : Except Fault α} {f : α → Except Fault β} {b : β} :
    x >>= f = .ok b ↔ ∃ a, x = .ok a ∧ f a = .ok b := by
  cases x with
  | error fault =>
      constructor
      · intro h
        cases h
      · rintro ⟨_, h, _⟩
        cases h
  | ok a =>
      constructor
      · intro h
        exact ⟨a, rfl, h⟩
      · rintro ⟨_, h, hb⟩
        cases h
        exact hb

/-- An argument is found by its number, as long as there are not too many. -/
theorem argumentText_eq_ok (hlimit : arguments.length ≤ indexLimit) {digits text : List Char} :
    argumentText arguments digits = .ok text ↔
      digits ≠ [] ∧ ∃ known : Nat.ofDigitChars 10 digits 0 < arguments.length,
        (arguments.get ⟨_, known⟩).toList = text := by
  rw [argumentText]
  by_cases hdigits : digits = []
  · simp [hdigits]
  · by_cases hknown : Nat.ofDigitChars 10 digits 0 < arguments.length
    · have hbelow : ¬ indexLimit ≤ Nat.ofDigitChars 10 digits 0 := by omega
      simp [hdigits, hbelow, hknown]
    · simp only [hdigits, hknown, false_or, IsEmpty.exists_iff, and_false, iff_false]
      split
      · simp
      · rw [List.getElem?_eq_none (Nat.not_lt.mp hknown)]
        simp

/-- What comes before the text of a computation is put in front of what it yields. -/
theorem exists_of_map_append_eq_ok {before filled : List Char} {x : Except Fault (List Char)}
    (h : (before ++ ·) <$> x = .ok filled) : ∃ out, x = .ok out ∧ before ++ out = filled := by
  cases x with
  | error fault => cases h
  | ok out => exact ⟨out, rfl, Except.ok.inj h⟩

theorem map_append_append (before between : List Char) (x : Except Fault (List Char)) :
    (before ++ ·) <$> (between ++ ·) <$> x = (before ++ between ++ ·) <$> x := by
  simp only [Functor.map_map, List.append_assoc]

theorem expand_opening (rest : List Char) :
    expand arguments ('\x7b' :: '\x7b' :: rest) = (['\x7b'] ++ ·) <$> expand arguments rest :=
  (expand.eq_2 arguments rest).trans (bind_pure_comp _ _)

theorem expand_closing (rest : List Char) :
    expand arguments ('\x7d' :: '\x7d' :: rest) = (['\x7d'] ++ ·) <$> expand arguments rest :=
  (expand.eq_4 arguments rest).trans (bind_pure_comp _ _)

theorem expand_char {c : Char} (notOpening : c ≠ '\x7b') (notClosing : c ≠ '\x7d')
    (rest : List Char) :
    expand arguments (c :: rest) = ([c] ++ ·) <$> expand arguments rest := by
  refine (expand.eq_6 arguments c rest ?_ notOpening ?_ notClosing).trans (bind_pure_comp _ _)
  · exact fun _ hc _ => notOpening hc
  · exact fun _ hc _ => notClosing hc

theorem expandPlaceholder_closed {digits text : List Char}
    (h : argumentText arguments digits = .ok text) (rest : List Char) :
    expandPlaceholder arguments digits ('\x7d' :: rest) =
      (text ++ ·) <$> expand arguments rest := by
  rw [expandPlaceholder.eq_2, h]
  exact bind_pure_comp (text ++ ·) (expand arguments rest)

/-- The digits of a placeholder are read up to the closing brace. -/
theorem expandPlaceholder_digits {more : List Char} (hmore : ∀ d ∈ more, d.isDigit = true)
    (seen rest : List Char) :
    expandPlaceholder arguments seen (more ++ '\x7d' :: rest) =
      expandPlaceholder arguments (seen ++ more) ('\x7d' :: rest) := by
  induction more generalizing seen with
  | nil => rw [List.append_nil, List.nil_append]
  | cons d more ih =>
      rw [List.forall_mem_cons] at hmore
      rw [List.cons_append, expandPlaceholder.eq_3 _ _ _ _ (not_brace_of_isDigit hmore.1).2,
        if_pos hmore.1, ih hmore.2, List.append_assoc, List.singleton_append]

/-- A token at the start of a template contributes what it stands for. -/
theorem expand_token (hlimit : arguments.length ≤ indexLimit) (token : Token arguments)
    (rest : List Char) :
    expand arguments (token.text ++ rest) = (token.meaning ++ ·) <$> expand arguments rest := by
  cases token with
  | char c notOpening notClosing => exact expand_char notOpening notClosing rest
  | opening => exact expand_opening rest
  | closing => exact expand_closing rest
  | placeholder digits nonempty digital known =>
      -- A digit comes next, so the brace is not the first half of a doubled one.
      have hfirst : ∀ rest', digits ++ '\x7d' :: rest = '\x7b' :: rest' → False := by
        intro rest' heq
        obtain ⟨d, ds, rfl⟩ := List.exists_cons_of_ne_nil nonempty
        exact (not_brace_of_isDigit (digital d List.mem_cons_self)).1 (List.cons.inj heq).1
      have htext : argumentText arguments digits = .ok (arguments.get ⟨_, known⟩).toList :=
        (argumentText_eq_ok hlimit).mpr ⟨nonempty, known, rfl⟩
      have hread : expand arguments ('\x7b' :: (digits ++ '\x7d' :: rest)) =
          ((arguments.get ⟨_, known⟩).toList ++ ·) <$> expand arguments rest := by
        rw [expand.eq_3 _ _ hfirst, expandPlaceholder_digits digital, List.nil_append,
          expandPlaceholder_closed htext]
      have hwritten : (Token.placeholder digits nonempty digital known).text ++ rest =
          '\x7b' :: (digits ++ '\x7d' :: rest) := by
        simp [Token.text]
      rw [hwritten]
      exact hread

/-- Tokens at the start of a template contribute what they stand for. -/
theorem expand_tokens (hlimit : arguments.length ≤ indexLimit) (tokens : List (Token arguments))
    (rest : List Char) :
    expand arguments (tokens.flatMap Token.text ++ rest) =
      (tokens.flatMap Token.meaning ++ ·) <$> expand arguments rest := by
  induction tokens with
  | nil => exact (id_map (expand arguments rest)).symm
  | cons token tokens ih =>
      rw [List.flatMap_cons, List.append_assoc, expand_token hlimit, ih, map_append_append,
        List.flatMap_cons]

/-- A template that can be filled is a sequence of tokens. A placeholder is one token, of which
the digits seen so far are kept until its brace closes. -/
theorem exists_tokens (hlimit : arguments.length ≤ indexLimit) {template filled : List Char}
    (h : expand arguments template = .ok filled) :
    ∃ tokens : List (Token arguments), tokens.flatMap Token.text = template := by
  revert h
  refine expand.induct
    (fun template => ∀ filled, expand arguments template = .ok filled →
      ∃ tokens : List (Token arguments), tokens.flatMap Token.text = template)
    (fun seen template => ∀ filled, (∀ d ∈ seen, d.isDigit = true) →
      expandPlaceholder arguments seen template = .ok filled →
      ∃ tokens : List (Token arguments), tokens.flatMap Token.text = '\x7b' :: (seen ++ template))
    ?nil ?opening ?placeholder ?closing ?unbalanced ?char ?unclosed ?closed ?digit ?stray
    template filled
  case nil => exact fun _ _ => ⟨[], rfl⟩
  case opening =>
    intro rest ih filled h
    rw [expand_opening] at h
    obtain ⟨out, hrest, -⟩ := exists_of_map_append_eq_ok h
    obtain ⟨tokens, rfl⟩ := ih out hrest
    exact ⟨.opening :: tokens, rfl⟩
  case placeholder =>
    intro rest hsingle ih filled h
    rw [expand.eq_3 _ _ hsingle] at h
    exact ih filled (List.forall_mem_nil _) h
  case closing =>
    intro rest ih filled h
    rw [expand_closing] at h
    obtain ⟨out, hrest, -⟩ := exists_of_map_append_eq_ok h
    obtain ⟨tokens, rfl⟩ := ih out hrest
    exact ⟨.closing :: tokens, rfl⟩
  case unbalanced =>
    intro rest hsingle filled h
    rw [expand.eq_5 _ _ hsingle] at h
    cases h
  case char =>
    intro c rest _ notOpening _ notClosing ih filled h
    rw [expand_char notOpening notClosing] at h
    obtain ⟨out, hrest, -⟩ := exists_of_map_append_eq_ok h
    obtain ⟨tokens, rfl⟩ := ih out hrest
    exact ⟨.char c notOpening notClosing :: tokens, rfl⟩
  case unclosed =>
    intro seen filled _ h
    cases h
  case closed =>
    intro seen rest ih filled hseen h
    rw [expandPlaceholder.eq_2] at h
    obtain ⟨text, htext, h⟩ := bind_eq_ok.mp h
    obtain ⟨out, hrest, -⟩ := bind_eq_ok.mp h
    obtain ⟨nonempty, known, -⟩ := (argumentText_eq_ok hlimit).mp htext
    obtain ⟨tokens, rfl⟩ := ih out hrest
    refine ⟨.placeholder seen nonempty hseen known :: tokens, ?_⟩
    simp [Token.text]
  case digit =>
    intro seen d rest hclosing hd ih filled hseen h
    rw [expandPlaceholder.eq_3 _ _ _ _ hclosing, if_pos hd] at h
    have hmore : ∀ d' ∈ seen ++ [d], d'.isDigit = true := by
      simpa [or_imp, forall_and, hd] using hseen
    obtain ⟨tokens, htokens⟩ := ih filled hmore h
    exact ⟨tokens, by simpa using htokens⟩
  case stray =>
    intro seen c rest hclosing hc filled _ h
    rw [expandPlaceholder.eq_3 _ _ _ _ hclosing, if_neg hc] at h
    cases h

/-- A template can be filled when it is a sequence of tokens, and with what they stand for. -/
theorem expand_eq_ok (hlimit : arguments.length ≤ indexLimit) {template filled : List Char} :
    expand arguments template = .ok filled ↔
      ∃ tokens : List (Token arguments),
        tokens.flatMap Token.text = template ∧ tokens.flatMap Token.meaning = filled := by
  have hread (tokens : List (Token arguments)) :
      expand arguments (tokens.flatMap Token.text) = .ok (tokens.flatMap Token.meaning) := by
    have happend := expand_tokens hlimit tokens []
    rw [expand.eq_1, List.append_nil] at happend
    exact happend.trans (congrArg Except.ok (List.append_nil _))
  constructor
  · intro h
    obtain ⟨tokens, rfl⟩ := exists_tokens hlimit h
    exact ⟨tokens, rfl, Except.ok.inj ((hread tokens).symm.trans h)⟩
  · rintro ⟨tokens, rfl, rfl⟩
    exact hread tokens

end Template

namespace Builtin

open Template

/-- A call of `format` succeeds exactly when the string form of its first argument is a sequence
of tokens for the string forms of the others, and then with the text that the tokens stand for.
Otherwise the first argument is refused as a template. -/
theorem format_grammar (first : TypedValue) (rest : List TypedValue)
    (hcount : (first :: rest).length < 2 ^ 63) (next : Identity) :
    (∀ r last, registry.call "format" (first :: rest) next = .ok (r, last) ↔
      ∃ tokens : List (Token (rest.map TypedValue.toText)),
        tokens.flatMap Token.text = first.toText.toList ∧
          r = .ofString (String.ofList (tokens.flatMap Token.meaning)) ∧ last = next) ∧
    ((∃ r last, registry.call "format" (first :: rest) next = .ok (r, last)) ∨
      ∃ fault, registry.call "format" (first :: rest) next =
        .error (.invalidArgument "format" (.template first.toText fault))) := by
  have hlimit : (rest.map TypedValue.toText).length ≤ indexLimit := by
    rw [List.length_map, indexLimit]
    simp only [List.length_cons] at hcount
    omega
  cases hexpand : expand (rest.map TypedValue.toText) first.toText.toList with
  | ok filled =>
      have hcall : registry.call "format" (first :: rest) next =
          .ok (.ofString (String.ofList filled), next) := by
        rw [call_format, hexpand]
        rfl
      refine ⟨fun r last => ?_, .inl ⟨_, _, hcall⟩⟩
      rw [hcall]
      constructor
      · intro h
        obtain ⟨tokens, htext, rfl⟩ := (expand_eq_ok hlimit).mp hexpand
        cases h
        exact ⟨tokens, htext, rfl, rfl⟩
      · rintro ⟨tokens, htext, rfl, rfl⟩
        have hfilled := (expand_eq_ok hlimit).mpr ⟨tokens, htext, rfl⟩
        rw [hexpand] at hfilled
        cases hfilled
        rfl
  | error fault =>
      have hcall : registry.call "format" (first :: rest) next =
          .error (.invalidArgument "format" (.template first.toText fault)) := by
        rw [call_format, hexpand]
        rfl
      refine ⟨fun r last => ?_, .inr ⟨fault, hcall⟩⟩
      rw [hcall]
      constructor
      · intro h
        cases h
      · rintro ⟨tokens, htext, -, -⟩
        have hfilled := (expand_eq_ok hlimit).mpr ⟨tokens, htext, rfl⟩
        rw [hexpand] at hfilled
        cases hfilled

/-- The tokens of a placeholder between doubled braces, its number with a zero in front. -/
def bracedTokens : List (Token ["\x7b1\x7d"]) :=
  [.opening, .placeholder ['0', '0'] (by decide) (by simp) (by decide), .closing]

/-- Braces in an argument stand for themselves. -/
theorem format_grammar_braces :
    [TypedValue.ofString "\x7b\x7b\x7b00\x7d\x7d\x7d", .ofString "\x7b1\x7d"].length < 2 ^ 63 ∧
    registry.call "format"
        [.ofString "\x7b\x7b\x7b00\x7d\x7d\x7d", .ofString "\x7b1\x7d"] 3 =
      .ok (.ofString "\x7b\x7b1\x7d\x7d", 3) := by
  have hcount : [TypedValue.ofString "\x7b\x7b\x7b00\x7d\x7d\x7d",
      .ofString "\x7b1\x7d"].length < 2 ^ 63 := by
    decide
  have hfilled : bracedTokens.flatMap Token.meaning = "\x7b\x7b1\x7d\x7d".toList := by decide
  refine ⟨hcount, ?_⟩
  apply ((format_grammar _ _ hcount 3).1 _ _).mpr
  refine ⟨bracedTokens, by decide, ?_, rfl⟩
  exact congrArg TypedValue.ofString (String.ofList_toList.symm.trans (congrArg _ hfilled.symm))

end Builtin

end WorkflowExpr
