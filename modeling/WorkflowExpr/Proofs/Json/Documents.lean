import Mathlib.Algebra.Group.Int.Defs
import WorkflowExpr.Proofs.Induction
import WorkflowExpr.Proofs.Json.Containers

/-!
Documents read back. A document without fractions, written in either style at any nesting
level, is read as itself, up to the depth to which containers may be nested; one level more
and reading is refused.
-/

namespace WorkflowExpr.Json

mutual

/-- How deep the containers of a document are nested. -/
def depth : Json → Nat
  | .array items => depthOfItems items + 1
  | .object members => depthOfMembers members + 1
  | _ => 0

def depthOfItems : List Json → Nat
  | [] => 0
  | item :: items => max item.depth (depthOfItems items)

def depthOfMembers : List (String × Json) → Nat
  | [] => 0
  | (_, value) :: members => max value.depth (depthOfMembers members)

end

/-- Documents in which every number is whole and has at most sixty-four bits. -/
inductive Whole : Json → Prop where
  | null : Whole .null
  | bool (b : Bool) : Whole (.bool b)
  | int {i : Int} (hleast : -2 ^ 63 ≤ i) (hgreatest : i < 2 ^ 64) : Whole (.int i)
  | string (s : String) : Whole (.string s)
  | array {items : List Json} (hitems : ∀ item ∈ items, Whole item) : Whole (.array items)
  | object {members : List (String × Json)} (hmembers : ∀ member ∈ members, Whole member.2) :
      Whole (.object members)

theorem depthOfItems_eq_foldr (items : List Json) :
    depthOfItems items = (items.map depth).foldr max 0 := by
  induction items with
  | nil => rfl
  | cons item items ih => rw [depthOfItems, ih, List.map_cons, List.foldr_cons]

theorem depthOfMembers_eq_foldr (members : List (String × Json)) :
    depthOfMembers members = (members.map fun member => member.2.depth).foldr max 0 := by
  induction members with
  | nil => rfl
  | cons member members ih => rw [depthOfMembers, ih, List.map_cons, List.foldr_cons]

theorem depthOfItems_le {items : List Json} {room : Nat} :
    depthOfItems items ≤ room ↔ ∀ item ∈ items, item.depth ≤ room := by
  induction items with
  | nil => simp [depthOfItems]
  | cons item items ih => rw [depthOfItems, Nat.max_le, ih, List.forall_mem_cons]

theorem depthOfMembers_le {members : List (String × Json)} {room : Nat} :
    depthOfMembers members ≤ room ↔ ∀ member ∈ members, member.2.depth ≤ room := by
  induction members with
  | nil => simp [depthOfMembers]
  | cons member members ih => rw [depthOfMembers, Nat.max_le, ih, List.forall_mem_cons]

open Reader

namespace Style

theorem isSpace_lineBreak (style : Style) (level : Nat) :
    ∀ c ∈ style.lineBreak level, isSpace c = true := by
  intro c hc
  cases style with
  | compact => cases hc
  | pretty =>
      rcases List.mem_cons.mp hc with rfl | hc
      · decide
      · rw [List.eq_of_mem_replicate hc]
        decide

/-- The space after the colon of a member. -/
def gap : Style → List Char
  | .compact => []
  | .pretty => [' ']

theorem colon_eq (style : Style) : style.colon = ':' :: style.gap := by
  cases style <;> rfl

theorem isSpace_gap (style : Style) : ∀ c ∈ style.gap, isSpace c = true := by
  intro c hc
  cases style with
  | compact => cases hc
  | pretty =>
      rw [List.mem_singleton.mp hc]
      decide

theorem intercalate_comma (text : List Char) (texts : List (List Char)) :
    [','].intercalate (text :: texts) = text ++ texts.flatMap (',' :: ·) := by
  induction texts generalizing text with
  | nil => simp
  | cons next texts ih => rw [List.intercalate_cons_cons, ih]; simp

/-- The layout of a container as a bracket and the text that follows it. -/
theorem enclose_eq {α : Type} (style : Style) (level : Nat) (opening closing : Char)
    (itemText : α → List Char) (items : List α) :
    style.enclose level opening closing (items.map itemText) =
      opening :: containerTail closing (style.lineBreak (level + 1)) (style.lineBreak level)
        itemText items := by
  cases items with
  | nil => rfl
  | cons item items =>
      simp only [enclose, List.map_cons, List.isEmpty_cons, Bool.false_eq_true, if_false,
        intercalate_comma, containerTail, laterItems, List.map_map, List.flatMap_map,
        List.append_assoc, List.cons_append, Function.comp_def]

end Style

theorem writeItems_eq_map (style : Style) (level : Nat) (items : List Json) :
    writeItems style level items = items.map (write style level) := by
  induction items with
  | nil => rfl
  | cons item items ih => rw [writeItems, ih, List.map_cons]

theorem writeMembers_eq_map (style : Style) (level : Nat) (members : List (String × Json)) :
    writeMembers style level members =
      members.map (memberText style.gap (write style level)) := by
  induction members with
  | nil => rfl
  | cons member members ih =>
      rw [writeMembers, ih, List.map_cons, memberText, Style.colon_eq]

theorem write_array (style : Style) (level : Nat) (items : List Json) :
    write style level (.array items) =
      '[' :: containerTail ']' (style.lineBreak (level + 1)) (style.lineBreak level)
        (write style (level + 1)) items := by
  rw [write, writeItems_eq_map, Style.enclose_eq]

theorem write_object (style : Style) (level : Nat) (members : List (String × Json)) :
    write style level (.object members) =
      '\x7b' :: containerTail '\x7d' (style.lineBreak (level + 1)) (style.lineBreak level)
        (memberText style.gap (write style (level + 1))) members := by
  rw [write, writeMembers_eq_map, Style.enclose_eq]

/-! What the reader does at the first character of a value. -/

section Values

variable {room : Nat} {space text rest : List Char}

theorem readValue_space (h : ∀ c ∈ space, isSpace c = true) :
    readValue room (space ++ text) = readValue room text := by
  unfold readValue
  rw [skipSpace_append h]

theorem not_isSpace_of_isDigit {c : Char} (h : c.isDigit = true) : isSpace c = false := by
  cases hspace : isSpace c with
  | false => rfl
  | true => rcases isSpace_cases hspace with rfl | rfl | rfl | rfl <;> cases h

theorem readValue_digit {c : Char} (h : c.isDigit = true) :
    readValue room (c :: text) = Number.readUnsigned false (c :: text) := by
  rw [readValue, skipSpace_cons (not_isSpace_of_isDigit h)]
  split
  case h_1 heq => cases heq
  case h_9 heq =>
      cases heq
      exact if_pos h
  all_goals
    rename_i heq
    cases heq
    cases h

theorem readValue_minus : readValue room ('-' :: text) = Number.readUnsigned true text := by
  rw [readValue]
  rfl

theorem toDigits_head (n : Nat) :
    ∃ c digits, Nat.toDigits 10 n = c :: digits ∧ c.isDigit = true := by
  obtain ⟨c, digits, heq⟩ := List.exists_cons_of_ne_nil (Nat.toDigits_ne_nil (n := n) (b := 10))
  have hc : c ∈ Nat.toDigits 10 n := by
    rw [heq]
    exact List.mem_cons_self
  exact ⟨c, digits, heq, Nat.isDigit_of_mem_toDigits (by decide) (by decide) hc⟩

/-- A whole number of at most sixty-four bits stays whole. -/
theorem readValue_intText {i : Int} (hleast : -2 ^ 63 ≤ i) (hgreatest : i < 2 ^ 64)
    (hends : Ends rest) : readValue room (intText i ++ rest) = .ok (.int i, rest) := by
  have hlimit : i.natAbs < Number.significandLimit := by
    rw [Number.significandLimit]
    omega
  unfold intText
  split
  · rename_i hneg
    have hwhole : Number.ofWhole true i.natAbs = .int i := by
      rw [Number.ofWhole, if_pos rfl, if_neg (by omega)]
      congr 1
      omega
    rw [List.append_assoc, List.singleton_append, readValue_minus,
      Number.readUnsigned_toDigits true hlimit hends, hwhole]
  · rename_i hpos
    have hwhole : Number.ofWhole false i.natAbs = .int i := by
      rw [Number.ofWhole, if_neg (by decide)]
      congr 1
      omega
    obtain ⟨c, digits, heq, hdigit⟩ := toDigits_head i.natAbs
    have hread := Number.readUnsigned_toDigits false hlimit hends
    rw [heq] at hread
    rw [List.nil_append, heq, List.cons_append, readValue_digit hdigit, ← List.cons_append, hread,
      hwhole]

theorem opens_intText (i : Int) : Opens (intText i) := by
  unfold intText
  split
  · exact ⟨'-', _, rfl, by decide⟩
  · obtain ⟨c, digits, heq, hdigit⟩ := toDigits_head i.natAbs
    rw [heq]
    refine ⟨c, digits, rfl, not_isSpace_of_isDigit hdigit, ?_, ?_⟩
    · rintro rfl
      cases hdigit
    · rintro rfl
      cases hdigit

theorem Whole.opens_write {json : Json} (h : Whole json) (style : Style) (level : Nat) :
    Opens (json.write style level) := by
  cases h with
  | null => exact ⟨'n', _, rfl, by decide⟩
  | bool b => cases b <;> exact ⟨_, _, rfl, by decide⟩
  | int => exact opens_intText _
  | string s => exact ⟨'"', _, rfl, by decide⟩
  | array hitems =>
      rw [write_array]
      exact ⟨'[', _, rfl, by decide⟩
  | object hmembers =>
      rw [write_object]
      exact ⟨'\x7b', _, rfl, by decide⟩

theorem takes_of_yields {json : Json} {fits : Prop} (hopens : Opens text)
    (h : ∀ rest, Ends rest → Yields fits json rest (readValue room (text ++ rest))) :
    Takes (readValue room) fits json text := by
  refine ⟨hopens, fun hspace hends => ?_⟩
  rw [readValue_space hspace]
  exact h _ hends

theorem readValue_string (s : String) (rest : List Char) :
    readValue room (quote s ++ rest) = .ok (.string s, rest) := by
  have hquote : quote s ++ rest = '"' :: (s.toList.flatMap escapeChar ++ '"' :: rest) := by
    simp only [quote, List.cons_append, List.append_assoc, List.nil_append]
  rw [hquote, readValue, skipSpace_cons (by decide)]
  change (readString _ >>= fun out => Except.ok (Json.string out.1, out.2)) = _
  rw [readString_escaped]
  rfl

theorem readValue_array (room : Nat) (text : List Char) :
    readValue (room + 1) ('[' :: text) =
      (do let (items, rest) ← readArray (readValue room) text; return (.array items, rest)) := by
  rw [readValue]
  rfl

theorem readValue_object (room : Nat) (text : List Char) :
    readValue (room + 1) ('\x7b' :: text) = (do
      let (members, rest) ← readObject readString (readValue room) text
      return (.object members, rest)) := by
  rw [readValue]
  rfl

/-- Where there is no room, a container is refused at its opening bracket. -/
theorem readValue_noRoom {c : Char} (h : c = '[' ∨ c = '\x7b') :
    readValue 0 (c :: text) = .error (.at .tooDeep (c :: text)) := by
  rw [readValue]
  rcases h with rfl | rfl <;> rfl

/-- A document is read as itself, or refused where it is nested too deep. -/
theorem Whole.takes_write {json : Json} (h : Whole json) (style : Style) (level room : Nat) :
    Takes (readValue room) (json.depth ≤ room) json (json.write style level) := by
  induction h generalizing level room with
  | null =>
      refine takes_of_yields (Whole.null.opens_write style level) fun rest _ => ?_
      refine Yields.of_ok (Nat.zero_le room) ?_
      rw [readValue]
      rfl
  | bool b =>
      refine takes_of_yields ((Whole.bool b).opens_write style level) fun rest _ => ?_
      refine Yields.of_ok (Nat.zero_le room) ?_
      rw [readValue]
      cases b <;> rfl
  | int hleast hgreatest =>
      refine takes_of_yields (opens_intText _) fun rest hends => ?_
      exact Yields.of_ok (Nat.zero_le room) (readValue_intText hleast hgreatest hends)
  | string s =>
      refine takes_of_yields ((Whole.string s).opens_write style level) fun rest _ => ?_
      exact Yields.of_ok (Nat.zero_le room) (readValue_string s rest)
  | @array items hitems ih =>
      refine takes_of_yields ((Whole.array hitems).opens_write style level) fun rest _ => ?_
      rw [write_array, List.cons_append]
      cases room with
      | zero => exact .of_error (Nat.not_succ_le_zero _) (readValue_noRoom (.inl rfl)) rfl
      | succ room =>
          have hread := readArray_yields (style.isSpace_lineBreak (level + 1))
            (style.isSpace_lineBreak level) (fun item hitem => ih item hitem (level + 1) room) rest
          have hfits : (Json.array items).depth ≤ room + 1 ↔ ∀ item ∈ items, item.depth ≤ room := by
            rw [depth, Nat.succ_le_succ_iff, depthOfItems_le]
          rw [readValue_array]
          exact Yields.congr (hread.map rfl) hfits
  | @object members hmembers ih =>
      refine takes_of_yields ((Whole.object hmembers).opens_write style level) fun rest _ => ?_
      rw [write_object, List.cons_append]
      cases room with
      | zero => exact .of_error (Nat.not_succ_le_zero _) (readValue_noRoom (.inr rfl)) rfl
      | succ room =>
          have hread := @readObject_yields Json (readValue room) (fun json => json.depth ≤ room)
            (write style (level + 1)) _ _ _ members (style.isSpace_lineBreak (level + 1))
            (style.isSpace_lineBreak level) style.isSpace_gap
            (fun member hmember => ih member hmember (level + 1) room) rest
          have hfits : (Json.object members).depth ≤ room + 1 ↔
              ∀ member ∈ members, member.2.depth ≤ room := by
            rw [depth, Nat.succ_le_succ_iff, depthOfMembers_le]
          rw [readValue_object]
          exact Yields.congr (hread.map rfl) hfits

end Values

/-- A written text holds the document that it was written from, if that is not nested deeper
than can be read. -/
theorem Whole.parse_toText {json : Json} (h : Whole json) (style : Style) :
    (json.depth ≤ depthLimit → parse (json.toText style) = .ok json) ∧
      (depthLimit < json.depth →
        ∃ error, parse (json.toText style) = .error error ∧ error.cause = .tooDeep) := by
  have hends : Ends [] := by rintro c ⟨⟩
  have hread := (h.takes_write style 0 depthLimit).yields_here hends
  rw [List.append_nil] at hread
  constructor
  · intro hfits
    rw [parse, toText, String.toList_ofList, readText, hread.reads hfits]
    rfl
  · intro hdeep
    obtain ⟨fault, hfault, hcause⟩ := hread.refuses (Nat.not_le.mpr hdeep)
    rw [parse, toText, String.toList_ofList, readText, hfault]
    exact ⟨_, rfl, hcause⟩

/-- A written text shows the document that it was written from, however deep that is nested. -/
theorem Whole.toText_injective {a b : Json} (ha : a.Whole) (hb : b.Whole) {style : Style}
    (h : a.toText style = b.toText style) : a = b := by
  have hends : Ends [] := by rintro c ⟨⟩
  have hreadA := ((ha.takes_write style 0 (max a.depth b.depth)).yields_here hends).reads
    (Nat.le_max_left _ _)
  have hreadB := ((hb.takes_write style 0 (max a.depth b.depth)).yields_here hends).reads
    (Nat.le_max_right _ _)
  rw [String.ofList_injective h, hreadB] at hreadA
  cases hreadA
  rfl

end WorkflowExpr.Json
