import WorkflowExpr.Proofs.Templates

/-!
Templates put together. A template that can be filled ends between two tokens, so whatever is
written behind it is read as if it stood alone. A text whose braces are doubled consists of
tokens that stand for the text itself.
-/

namespace WorkflowExpr

namespace Template

variable {arguments : List String}

/-- A template that can be filled leaves what follows it to be read on its own. Inside a
placeholder the same holds, since it has to be closed. -/
theorem expand_append {first filled : List Char} (h : expand arguments first = .ok filled)
    (second : List Char) :
    expand arguments (first ++ second) = (filled ++ ·) <$> expand arguments second := by
  revert h
  refine expand.induct
    (fun first => ∀ filled, expand arguments first = .ok filled →
      expand arguments (first ++ second) = (filled ++ ·) <$> expand arguments second)
    (fun seen first => ∀ filled, expandPlaceholder arguments seen first = .ok filled →
      expandPlaceholder arguments seen (first ++ second) =
        (filled ++ ·) <$> expand arguments second)
    ?nil ?opening ?placeholder ?closing ?unbalanced ?char ?unclosed ?closed ?digit ?stray
    first filled
  case nil =>
    intro filled h
    obtain rfl : [] = filled := Except.ok.inj h
    exact (id_map (expand arguments second)).symm
  case opening =>
    intro rest ih filled h
    rw [expand_opening] at h
    obtain ⟨out, hrest, rfl⟩ := exists_of_map_append_eq_ok h
    rw [List.cons_append, List.cons_append, expand_opening, ih out hrest, map_append_append]
  case placeholder =>
    intro rest hsingle ih filled h
    rw [expand.eq_3 _ _ hsingle] at h
    -- The placeholder has a character left, so gluing cannot double its brace.
    have hglued : ∀ rest', rest ++ second = '\x7b' :: rest' → False := by
      cases rest with
      | nil => cases h
      | cons c rest =>
          intro rest' heq
          exact hsingle rest (by rw [(List.cons.inj heq).1])
    rw [List.cons_append, expand.eq_3 _ _ hglued]
    exact ih filled h
  case closing =>
    intro rest ih filled h
    rw [expand_closing] at h
    obtain ⟨out, hrest, rfl⟩ := exists_of_map_append_eq_ok h
    rw [List.cons_append, List.cons_append, expand_closing, ih out hrest, map_append_append]
  case unbalanced =>
    intro rest hsingle filled h
    rw [expand.eq_5 _ _ hsingle] at h
    cases h
  case char =>
    intro c rest _ notOpening _ notClosing ih filled h
    rw [expand_char notOpening notClosing] at h
    obtain ⟨out, hrest, rfl⟩ := exists_of_map_append_eq_ok h
    rw [List.cons_append, expand_char notOpening notClosing, ih out hrest, map_append_append]
  case unclosed =>
    intro seen filled h
    cases h
  case closed =>
    intro seen rest ih filled h
    rw [expandPlaceholder.eq_2] at h
    obtain ⟨text, htext, -⟩ := bind_eq_ok.mp h
    rw [← expandPlaceholder.eq_2, expandPlaceholder_closed htext] at h
    obtain ⟨out, hrest, rfl⟩ := exists_of_map_append_eq_ok h
    rw [List.cons_append, expandPlaceholder_closed htext, ih out hrest, map_append_append]
  case digit =>
    intro seen d rest hclosing hd ih filled h
    rw [expandPlaceholder.eq_3 _ _ _ _ hclosing, if_pos hd] at h
    rw [List.cons_append, expandPlaceholder.eq_3 _ _ _ _ hclosing, if_pos hd]
    exact ih filled h
  case stray =>
    intro seen c rest hclosing hc filled h
    rw [expandPlaceholder.eq_3 _ _ _ _ hclosing, if_neg hc] at h
    cases h

/-- A text with every brace doubled. -/
def escape (text : List Char) : List Char :=
  text.flatMap fun c => if c = '\x7b' ∨ c = '\x7d' then [c, c] else [c]

/-- A text with its braces doubled stands for the text. -/
theorem expand_escape (text : List Char) : expand arguments (escape text) = .ok text := by
  induction text with
  | nil => rfl
  | cons c text ih =>
      rw [escape, List.flatMap_cons, ← escape]
      by_cases hopening : c = '\x7b'
      · rw [if_pos (.inl hopening), hopening, List.cons_append, List.singleton_append,
          expand_opening, ih]
        rfl
      · by_cases hclosing : c = '\x7d'
        · rw [if_pos (.inr hclosing), hclosing, List.cons_append, List.singleton_append,
            expand_closing, ih]
          rfl
        · rw [if_neg (not_or.mpr ⟨hopening, hclosing⟩), List.singleton_append,
            expand_char hopening hclosing, ih]
          rfl

end Template

namespace Builtin

open Template

/-- A call of `format` succeeds exactly when its template can be filled. -/
theorem call_format_eq_ok {first : TypedValue} {rest : List TypedValue} {next : Identity}
    {r : TypedValue × Identity} :
    registry.call "format" (first :: rest) next = .ok r ↔
      ∃ filled, expand (rest.map TypedValue.toText) first.toText.toList = .ok filled ∧
        r = (.ofString (String.ofList filled), next) := by
  rw [call_format]
  cases expand (rest.map TypedValue.toText) first.toText.toList with
  | error fault =>
      constructor
      · rintro ⟨⟩
      · rintro ⟨_, ⟨⟩, _⟩
  | ok filled =>
      constructor
      · intro h
        exact ⟨filled, rfl, (Except.ok.inj h).symm⟩
      · rintro ⟨_, ⟨⟩, rfl⟩
        rfl

/-- Once a template can be filled, a longer template that begins with it can be filled exactly
when the remainder can, and the texts are put together. A template with every brace doubled is
filled to the text before doubling, whatever the other arguments are. -/
theorem format_composes (args : List TypedValue) (next : Identity) :
    (∀ (first second whole : TypedValue) (r₁ : TypedValue × Identity),
      whole.toText = first.toText ++ second.toText →
      registry.call "format" (first :: args) next = .ok r₁ →
      ((∃ r, registry.call "format" (whole :: args) next = .ok r) ↔
        ∃ r, registry.call "format" (second :: args) next = .ok r) ∧
      ∀ r₂, registry.call "format" (second :: args) next = .ok r₂ →
        ∃ text₁ text₂, r₁ = (.ofString text₁, next) ∧ r₂ = (.ofString text₂, next) ∧
          registry.call "format" (whole :: args) next =
            .ok (.ofString (text₁ ++ text₂), next)) ∧
    ∀ (template : TypedValue) (text : String),
      template.toText = String.ofList (escape text.toList) →
      registry.call "format" (template :: args) next = .ok (.ofString text, next) := by
  constructor
  · intro first second whole r₁ hwhole hfirst
    obtain ⟨filled₁, hfilled₁, rfl⟩ := call_format_eq_ok.mp hfirst
    have happend : expand (args.map TypedValue.toText) whole.toText.toList =
        (filled₁ ++ ·) <$> expand (args.map TypedValue.toText) second.toText.toList := by
      rw [hwhole, String.toList_append]
      exact expand_append hfilled₁ _
    have hboth : ∀ filled₂,
        expand (args.map TypedValue.toText) second.toText.toList = .ok filled₂ →
        registry.call "format" (whole :: args) next =
          .ok (.ofString (String.ofList filled₁ ++ String.ofList filled₂), next) := by
      intro filled₂ hfilled₂
      rw [hfilled₂] at happend
      refine call_format_eq_ok.mpr ⟨filled₁ ++ filled₂, happend, ?_⟩
      rw [String.ofList_append]
    refine ⟨⟨?_, ?_⟩, ?_⟩
    · rintro ⟨r, hr⟩
      obtain ⟨filled, hfilled, -⟩ := call_format_eq_ok.mp hr
      rw [happend] at hfilled
      obtain ⟨filled₂, hfilled₂, -⟩ := exists_of_map_append_eq_ok hfilled
      exact ⟨_, call_format_eq_ok.mpr ⟨filled₂, hfilled₂, rfl⟩⟩
    · rintro ⟨r, hr⟩
      obtain ⟨filled₂, hfilled₂, -⟩ := call_format_eq_ok.mp hr
      exact ⟨_, hboth filled₂ hfilled₂⟩
    · intro r₂ hr₂
      obtain ⟨filled₂, hfilled₂, rfl⟩ := call_format_eq_ok.mp hr₂
      exact ⟨_, _, rfl, rfl, hboth filled₂ hfilled₂⟩
  · intro template text htemplate
    refine call_format_eq_ok.mpr ⟨text.toList, ?_, ?_⟩
    · rw [htemplate, String.toList_ofList]
      exact expand_escape _
    · rw [String.ofList_toList]

/-- A template cut between the closing brace of a placeholder and a run of doubled braces. -/
theorem format_composes_braces :
    (TypedValue.ofString "\x7b0\x7d\x7d\x7d\x7b\x7b0\x7d\x7d").toText =
      (TypedValue.ofString "\x7b0\x7d\x7d\x7d").toText ++
        (TypedValue.ofString "\x7b\x7b0\x7d\x7d").toText ∧
    registry.call "format" [.ofString "\x7b0\x7d\x7d\x7d", .ofString "\x7b1\x7d"] 3 =
      .ok (.ofString "\x7b1\x7d\x7d", 3) ∧
    (TypedValue.ofString "\x7b\x7b0\x7d\x7d").toText =
      String.ofList (escape "\x7b0\x7d".toList) ∧
    registry.call "format" [.ofString "\x7b\x7b0\x7d\x7d", .ofString "\x7b1\x7d"] 3 =
      .ok (.ofString "\x7b0\x7d", 3) ∧
    registry.call "format"
        [.ofString "\x7b0\x7d\x7d\x7d\x7b\x7b0\x7d\x7d", .ofString "\x7b1\x7d"] 3 =
      .ok (.ofString "\x7b1\x7d\x7d\x7b0\x7d", 3) := by
  have hwhole : (TypedValue.ofString "\x7b0\x7d\x7d\x7d\x7b\x7b0\x7d\x7d").toText =
      (TypedValue.ofString "\x7b0\x7d\x7d\x7d").toText ++
        (TypedValue.ofString "\x7b\x7b0\x7d\x7d").toText := by decide
  have hescaped : (TypedValue.ofString "\x7b\x7b0\x7d\x7d").toText =
      String.ofList (escape "\x7b0\x7d".toList) := by decide
  have hfirst : registry.call "format" [.ofString "\x7b0\x7d\x7d\x7d", .ofString "\x7b1\x7d"] 3 =
      .ok (.ofString "\x7b1\x7d\x7d", 3) :=
    call_format_eq_ok.mpr ⟨_, rfl, rfl⟩
  obtain ⟨hcompose, hescape⟩ := format_composes [.ofString "\x7b1\x7d"] 3
  have hsecond := hescape _ _ hescaped
  obtain ⟨text₁, text₂, htext₁, htext₂, hboth⟩ := (hcompose _ _ _ _ hwhole hfirst).2 _ hsecond
  cases htext₁
  cases htext₂
  exact ⟨hwhole, hfirst, hescaped, hsecond, hboth⟩

end Builtin

end WorkflowExpr
