import WorkflowExpr.Proofs.Json.Numbers
import WorkflowExpr.Proofs.Json.Strings

/-!
Arrays and objects read back, if what stands in them does. The readers of containers take any
reader for the parts, so the lemmas ask only that this reader takes the text of each part and
leaves what follows, or refuses it because containers are nested too deep.
-/

namespace WorkflowExpr.Json.Reader

/-- Reading gives a result and what follows it if there is room for it, and is refused as
nested too deep if there is none. -/
structure Yields {α : Type} (fits : Prop) (a : α) (rest : List Char)
    (out : Except Fault (α × List Char)) : Prop where
  reads : fits → out = .ok (a, rest)
  refuses : ¬ fits → ∃ fault, out = .error fault ∧ fault.cause = .tooDeep

/-- Whether a text starts with what starts no space and closes no container. -/
def Opens (text : List Char) : Prop :=
  ∃ c tail, text = c :: tail ∧ isSpace c = false ∧ c ≠ ']' ∧ c ≠ '\x7d'

theorem Opens.append {text : List Char} (h : Opens text) (rest : List Char) :
    Opens (text ++ rest) := by
  obtain ⟨c, tail, rfl, hc⟩ := h
  exact ⟨c, tail ++ rest, rfl, hc⟩

/-- A reader takes a text, with any space in front of it, as the text of an item. -/
structure Takes {α : Type} (readItem : List Char → Except Fault (α × List Char)) (fits : Prop)
    (item : α) (text : List Char) : Prop where
  opens : Opens text
  yields : ∀ {space rest : List Char}, (∀ c ∈ space, isSpace c = true) → Ends rest →
    Yields fits item rest (readItem (space ++ (text ++ rest)))

theorem Takes.yields_here {α : Type} {readItem : List Char → Except Fault (α × List Char)}
    {fits : Prop} {item : α} {text rest : List Char} (h : Takes readItem fits item text)
    (hends : Ends rest) : Yields fits item rest (readItem (text ++ rest)) :=
  @h.yields [] rest (fun _ hc => absurd hc List.not_mem_nil) hends

variable {α β : Type} {a : α} {b : β} {fits fits' : Prop} {text rest rest' : List Char}

namespace Yields

theorem of_ok {out : Except Fault (α × List Char)} (hfits : fits) (h : out = .ok (a, rest)) :
    Yields fits a rest out :=
  ⟨fun _ => h, fun hno => absurd hfits hno⟩

theorem of_error {out : Except Fault (α × List Char)} {fault : Fault} (hfits : ¬ fits)
    (h : out = .error fault) (hcause : fault.cause = .tooDeep) : Yields fits a rest out :=
  ⟨fun hyes => absurd hyes hfits, fun _ => ⟨fault, h, hcause⟩⟩

theorem congr {out : Except Fault (α × List Char)} (h : Yields fits a rest out)
    (hiff : fits' ↔ fits) : Yields fits' a rest out :=
  ⟨fun hfits => h.reads (hiff.mp hfits), fun hno => h.refuses fun hfits => hno (hiff.mpr hfits)⟩

/-- Reading one thing after the other needs room for both. -/
theorem bind {x : Except Fault (α × List Char)}
    {f : α × List Char → Except Fault (β × List Char)} (hx : Yields fits a rest x)
    (hf : Yields fits' b rest' (f (a, rest))) : Yields (fits ∧ fits') b rest' (x >>= f) := by
  constructor
  · rintro ⟨hfits, hfits'⟩
    rw [hx.reads hfits]
    exact hf.reads hfits'
  · intro hno
    by_cases hfits : fits
    · rw [hx.reads hfits]
      exact hf.refuses fun hfits' => hno ⟨hfits, hfits'⟩
    · obtain ⟨fault, hfault, hcause⟩ := hx.refuses hfits
      rw [hfault]
      exact ⟨fault, rfl, hcause⟩

/-- What is done with a result needs no room. -/
theorem map {x : Except Fault (α × List Char)}
    {f : α × List Char → Except Fault (β × List Char)} (hx : Yields fits a rest x)
    (hf : f (a, rest) = .ok (b, rest')) : Yields fits b rest' (x >>= f) :=
  (hx.bind (of_ok trivial hf)).congr (and_iff_left trivial).symm

end Yields

/-! Space between tokens. -/

theorem skipSpace_append {space : List Char} (h : ∀ c ∈ space, isSpace c = true)
    (text : List Char) : skipSpace (space ++ text) = skipSpace text :=
  List.dropWhile_append_of_pos h

theorem skipSpace_cons {c : Char} (h : isSpace c = false) (tail : List Char) :
    skipSpace (c :: tail) = c :: tail :=
  List.dropWhile_cons_of_neg (by simp [h])

theorem isSpace_cases {c : Char} (h : isSpace c = true) :
    c = ' ' ∨ c = '\n' ∨ c = '\t' ∨ c = '\r' := by
  simpa [isSpace, or_assoc] using h

/-- What follows a number may start with space. -/
theorem ends_append {space : List Char} (hspace : ∀ c ∈ space, isSpace c = true)
    (h : Ends text) : Ends (space ++ text) := by
  cases space with
  | nil => exact h
  | cons c space =>
      rintro d ⟨⟩
      rcases isSpace_cases (hspace c List.mem_cons_self) with rfl | rfl | rfl | rfl <;> decide

section Containers

variable {readItem : List Char → Except Fault (α × List Char)} {fitsItem : α → Prop}
  {itemText : α → List Char} {space closing gap : List Char} {items : List α}
  {members : List (String × α)}

/-- The text of the parts of a container after the first, with the space before each. -/
def laterItems (space : List Char) (itemText : α → List Char) (items : List α) : List Char :=
  items.flatMap fun item => ',' :: (space ++ itemText item)

/-- The text of a container without its opening bracket. -/
def containerTail (bracket : Char) (space closing : List Char) (itemText : α → List Char) :
    List α → List Char
  | [] => [bracket]
  | item :: items =>
      space ++ (itemText item ++ (laterItems space itemText items ++ (closing ++ [bracket])))

theorem laterItems_cons_append (item : α) (items : List α) (rest : List Char) :
    laterItems space itemText (item :: items) ++ rest =
      ',' :: (space ++ (itemText item ++ (laterItems space itemText items ++ rest))) := by
  simp only [laterItems, List.flatMap_cons, List.cons_append, List.append_assoc]

theorem ends_laterItems (space : List Char) (itemText : α → List Char) (items : List α)
    (h : Ends rest) : Ends (laterItems space itemText items ++ rest) := by
  cases items with
  | nil => exact h
  | cons item items =>
      rintro c ⟨⟩
      decide

theorem length_lt_laterItems (space : List Char) (itemText : α → List Char) (items : List α)
    (rest : List Char) :
    items.length < (laterItems space itemText items ++ rest).length + 1 := by
  induction items with
  | nil => exact Nat.zero_lt_succ _
  | cons item items ih =>
      rw [laterItems_cons_append, List.length_cons, List.length_cons, List.length_append,
        List.length_append]
      omega

/-! Arrays. -/

theorem ends_bracket (hclosing : ∀ c ∈ closing, isSpace c = true) (rest : List Char) :
    Ends (closing ++ ']' :: rest) := by
  refine ends_append hclosing ?_
  rintro c ⟨⟩
  decide

theorem readItems_closing (hclosing : ∀ c ∈ closing, isSpace c = true) (bound : Nat)
    (rest : List Char) :
    readItems readItem (bound + 1) (closing ++ ']' :: rest) = .ok ([], rest) := by
  rw [readItems, skipSpace_append hclosing, skipSpace_cons (by decide)]
  rfl

theorem readItems_comma (hspace : ∀ c ∈ space, isSpace c = true) (hopens : Opens text)
    (bound : Nat) :
    readItems readItem (bound + 1) (',' :: (space ++ text)) = (do
      let (item, rest) ← readItem text
      let (items, rest) ← readItems readItem bound rest
      return (item :: items, rest)) := by
  obtain ⟨c, tail, rfl, hc, hbracket, -⟩ := hopens
  rw [readItems, skipSpace_cons (by decide)]
  simp only
  rw [skipSpace_append hspace, skipSpace_cons hc]
  split
  · rename_i heq
    cases heq
  · rename_i heq
    cases heq
    exact absurd rfl hbracket
  · rfl

theorem readArray_opens (hspace : ∀ c ∈ space, isSpace c = true) (hopens : Opens text) :
    readArray readItem (space ++ text) = (do
      let (item, rest) ← readItem text
      let (items, rest) ← readItems readItem (rest.length + 1) rest
      return (item :: items, rest)) := by
  obtain ⟨c, tail, rfl, hc, hbracket, -⟩ := hopens
  rw [readArray, skipSpace_append hspace, skipSpace_cons hc]
  split
  · rename_i heq
    cases heq
  · rename_i heq
    cases heq
    exact absurd rfl hbracket
  · rfl

theorem readItems_yields (hspace : ∀ c ∈ space, isSpace c = true)
    (hclosing : ∀ c ∈ closing, isSpace c = true)
    (hitems : ∀ item ∈ items, Takes readItem (fitsItem item) item (itemText item))
    {bound : Nat} (hbound : items.length < bound) (rest : List Char) :
    Yields (∀ item ∈ items, fitsItem item) items rest
      (readItems readItem bound
        (laterItems space itemText items ++ (closing ++ ']' :: rest))) := by
  induction items generalizing bound with
  | nil =>
      obtain ⟨k, rfl⟩ := Nat.exists_eq_succ_of_ne_zero (Nat.ne_of_gt hbound)
      exact Yields.of_ok (fun _ hitem => absurd hitem List.not_mem_nil)
        (readItems_closing hclosing k rest)
  | cons item items ih =>
      obtain ⟨k, rfl⟩ := Nat.exists_eq_succ_of_ne_zero (Nat.ne_of_gt (Nat.zero_lt_of_lt hbound))
      have hitem := hitems item List.mem_cons_self
      have hlater := ih (fun other hother => hitems other (List.mem_cons_of_mem item hother))
        (Nat.lt_of_succ_lt_succ hbound)
      have hread := hitem.yields_here
        (ends_laterItems space itemText items (ends_bracket hclosing rest))
      rw [laterItems_cons_append, readItems_comma hspace (hitem.opens.append _)]
      refine (hread.bind ?_).congr List.forall_mem_cons
      exact hlater.map rfl

/-- An array reads back when its items do. -/
theorem readArray_yields (hspace : ∀ c ∈ space, isSpace c = true)
    (hclosing : ∀ c ∈ closing, isSpace c = true)
    (hitems : ∀ item ∈ items, Takes readItem (fitsItem item) item (itemText item))
    (rest : List Char) :
    Yields (∀ item ∈ items, fitsItem item) items rest
      (readArray readItem (containerTail ']' space closing itemText items ++ rest)) := by
  cases items with
  | nil => exact Yields.of_ok (fun _ hitem => absurd hitem List.not_mem_nil) rfl
  | cons item items =>
      have hitem := hitems item List.mem_cons_self
      have hbound := length_lt_laterItems space itemText items (closing ++ ']' :: rest)
      have hlater := readItems_yields hspace hclosing
        (fun other hother => hitems other (List.mem_cons_of_mem item hother)) hbound rest
      have hread := hitem.yields_here
        (ends_laterItems space itemText items (ends_bracket hclosing rest))
      simp only [containerTail, List.append_assoc, List.singleton_append]
      rw [readArray_opens hspace (hitem.opens.append _)]
      refine (hread.bind ?_).congr List.forall_mem_cons
      exact hlater.map rfl

/-! Objects. -/

def memberText (gap : List Char) (itemText : α → List Char) (member : String × α) :
    List Char :=
  quote member.1 ++ (':' :: gap) ++ itemText member.2

theorem memberText_append (member : String × α) (rest : List Char) :
    memberText gap itemText member ++ rest =
      '"' :: (member.1.toList.flatMap escapeChar ++
        '"' :: ':' :: (gap ++ (itemText member.2 ++ rest))) := by
  simp only [memberText, quote, List.cons_append, List.append_assoc, List.nil_append]

theorem ends_brace (hclosing : ∀ c ∈ closing, isSpace c = true) (rest : List Char) :
    Ends (closing ++ '\x7d' :: rest) := by
  refine ends_append hclosing ?_
  rintro c ⟨⟩
  decide

/-- A member reads back when its value does. -/
theorem readMember_yields (hgap : ∀ c ∈ gap, isSpace c = true) (name : String) {item : α}
    {fits : Prop} (hitem : Takes readItem fits item text) (hends : Ends rest) :
    Yields fits (name, item) rest
      (readMember readString readItem
        (name.toList.flatMap escapeChar ++ '"' :: ':' :: (gap ++ (text ++ rest)))) := by
  rw [readMember, readString_escaped]
  exact (hitem.yields hgap hends).map rfl

theorem readMembers_closing (hclosing : ∀ c ∈ closing, isSpace c = true) (bound : Nat)
    (rest : List Char) :
    readMembers readString readItem (bound + 1) (closing ++ '\x7d' :: rest) = .ok ([], rest) := by
  rw [readMembers, skipSpace_append hclosing, skipSpace_cons (by decide)]
  rfl

theorem readMembers_comma (hspace : ∀ c ∈ space, isSpace c = true) (bound : Nat)
    (text : List Char) :
    readMembers readString readItem (bound + 1) (',' :: (space ++ '"' :: text)) = (do
      let (member, rest) ← readMember readString readItem text
      let (members, rest) ← readMembers readString readItem bound rest
      return (member :: members, rest)) := by
  rw [readMembers, skipSpace_cons (by decide)]
  simp only
  rw [skipSpace_append hspace, skipSpace_cons (by decide)]
  rfl

theorem readObject_opens (hspace : ∀ c ∈ space, isSpace c = true) (text : List Char) :
    readObject readString readItem (space ++ '"' :: text) = (do
      let (member, rest) ← readMember readString readItem text
      let (members, rest) ← readMembers readString readItem (rest.length + 1) rest
      return (member :: members, rest)) := by
  rw [readObject, skipSpace_append hspace, skipSpace_cons (by decide)]
  rfl

theorem readMembers_yields (hspace : ∀ c ∈ space, isSpace c = true)
    (hclosing : ∀ c ∈ closing, isSpace c = true) (hgap : ∀ c ∈ gap, isSpace c = true)
    (hmembers : ∀ member ∈ members,
      Takes readItem (fitsItem member.2) member.2 (itemText member.2))
    {bound : Nat} (hbound : members.length < bound) (rest : List Char) :
    Yields (∀ member ∈ members, fitsItem member.2) members rest
      (readMembers readString readItem bound
        (laterItems space (memberText gap itemText) members ++ (closing ++ '\x7d' :: rest))) := by
  induction members generalizing bound with
  | nil =>
      obtain ⟨k, rfl⟩ := Nat.exists_eq_succ_of_ne_zero (Nat.ne_of_gt hbound)
      exact Yields.of_ok (fun _ hmember => absurd hmember List.not_mem_nil)
        (readMembers_closing hclosing k rest)
  | cons member members ih =>
      obtain ⟨k, rfl⟩ := Nat.exists_eq_succ_of_ne_zero (Nat.ne_of_gt (Nat.zero_lt_of_lt hbound))
      have hmember := hmembers member List.mem_cons_self
      have hlater := ih (fun other hother => hmembers other (List.mem_cons_of_mem member hother))
        (Nat.lt_of_succ_lt_succ hbound)
      have hread := readMember_yields hgap member.1 hmember
        (ends_laterItems space (memberText gap itemText) members (ends_brace hclosing rest))
      rw [laterItems_cons_append, memberText_append, readMembers_comma hspace]
      refine (hread.bind ?_).congr List.forall_mem_cons
      exact hlater.map rfl

/-- An object reads back when the values of its members do. -/
theorem readObject_yields (hspace : ∀ c ∈ space, isSpace c = true)
    (hclosing : ∀ c ∈ closing, isSpace c = true) (hgap : ∀ c ∈ gap, isSpace c = true)
    (hmembers : ∀ member ∈ members,
      Takes readItem (fitsItem member.2) member.2 (itemText member.2))
    (rest : List Char) :
    Yields (∀ member ∈ members, fitsItem member.2) members rest
      (readObject readString readItem
        (containerTail '\x7d' space closing (memberText gap itemText) members ++ rest)) := by
  cases members with
  | nil => exact Yields.of_ok (fun _ hmember => absurd hmember List.not_mem_nil) rfl
  | cons member members =>
      have hmember := hmembers member List.mem_cons_self
      have hbound := length_lt_laterItems space (memberText gap itemText) members
        (closing ++ '\x7d' :: rest)
      have hlater := readMembers_yields hspace hclosing hgap
        (fun other hother => hmembers other (List.mem_cons_of_mem member hother)) hbound rest
      have hread := readMember_yields hgap member.1 hmember
        (ends_laterItems space (memberText gap itemText) members (ends_brace hclosing rest))
      simp only [containerTail, List.append_assoc, List.singleton_append]
      rw [memberText_append, readObject_opens hspace]
      refine (hread.bind ?_).congr List.forall_mem_cons
      exact hlater.map rfl

end Containers

end WorkflowExpr.Json.Reader
