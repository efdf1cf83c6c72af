import WorkflowExpr.Text.CaseIgnorable
import WorkflowExpr.Text.Cased
import WorkflowExpr.Text.LowerRuns

/-!
Lower case, in two forms. `foldCase` maps every character on its own and is what comparison
uses. `lowercase` maps a text as a whole: a capital sigma that ends a word becomes the final
small sigma. The two differ on that letter alone.
-/

namespace WorkflowExpr.Text

/-- The lower-case form of one character. Only the dotted capital I has two characters. -/
def lowerChar (c : Char) : List Char :=
  if c = 'İ' then ['i', '\u0307']
  else
    match lowerRuns.find? (·.covers c.toNat) with
    | some run => [Char.ofNat (c.toNat + run.offset).toNat]
    | none => [c]

/-- Every character in lower case, whatever stands around it. -/
def foldCase (text : List Char) : List Char := text.flatMap lowerChar

/-- The order of two texts by code point, ignoring case. -/
def compareIgnoringCase (a b : String) : Ordering :=
  List.compareLex (fun x y => compare x.toNat y.toNat) (foldCase a.toList) (foldCase b.toList)

def eqIgnoringCase (a b : String) : Bool := compareIgnoringCase a b == .eq

/-- Whether the first character that is not ignorable for case is a cased one. -/
def startsCased (text : List Char) : Bool :=
  match text.dropWhile isCaseIgnorable with
  | c :: _ => isCased c
  | [] => false

/-- Small sigma, in its final form at the end of a word. The text before is given from its
end backwards. -/
def lowerSigma (before after : List Char) : Char :=
  if startsCased before && !startsCased after then 'ς' else 'σ'

/-- The lower-case form of a text that follows another one, given from its end backwards. -/
def lowercaseAfter (before : List Char) : List Char → List Char
  | [] => []
  | c :: rest =>
      (if c = 'Σ' then [lowerSigma before rest] else lowerChar c) ++
        lowercaseAfter (c :: before) rest

def lowercase (text : String) : String := String.ofList (lowercaseAfter [] text.toList)

/-- A text without capital sigma has the same lower-case form either way. -/
theorem lowercaseAfter_eq_foldCase (before text : List Char) (h : 'Σ' ∉ text) :
    lowercaseAfter before text = foldCase text := by
  induction text generalizing before with
  | nil => rfl
  | cons c rest ih =>
      simp only [List.mem_cons, not_or] at h
      rw [lowercaseAfter, if_neg (Ne.symm h.1), ih _ h.2]
      rfl

end WorkflowExpr.Text
