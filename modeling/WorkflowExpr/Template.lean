/-!
Templates with numbered placeholders. A number in braces stands for an argument, a doubled
brace stands for one brace, and every other character stands for itself. What an argument
contributes is never read again.
-/

namespace WorkflowExpr.Template

inductive Fault where
  | malformedPlaceholder
  | missingArgument (index : Nat)
  | unbalancedBrace
deriving DecidableEq, Repr

def indexLimit : Nat := 1 <<< 64

/-- The text of the argument whose number the digits write. -/
def argumentText (arguments : List String) (digits : List Char) : Except Fault (List Char) :=
  let index := Nat.ofDigitChars 10 digits 0
  if digits = [] ∨ indexLimit ≤ index then .error .malformedPlaceholder
  else
    match arguments[index]? with
    | some text => .ok text.toList
    | none => .error (.missingArgument index)

mutual

/-- The text that a template stands for. The first fault from the left is the one reported. -/
def expand (arguments : List String) : List Char → Except Fault (List Char)
  | [] => .ok []
  | '\x7b' :: '\x7b' :: rest => return '\x7b' :: (← expand arguments rest)
  | '\x7b' :: rest => expandPlaceholder arguments [] rest
  | '\x7d' :: '\x7d' :: rest => return '\x7d' :: (← expand arguments rest)
  | '\x7d' :: _ => .error .unbalancedBrace
  | c :: rest => return c :: (← expand arguments rest)

/-- The same inside a placeholder of which some digits have been seen. -/
def expandPlaceholder (arguments : List String) (digits : List Char) :
    List Char → Except Fault (List Char)
  | [] => .error .malformedPlaceholder
  | '\x7d' :: rest => do
      let text ← argumentText arguments digits
      return text ++ (← expand arguments rest)
  | c :: rest =>
      if c.isDigit then expandPlaceholder arguments (digits ++ [c]) rest
      else .error .malformedPlaceholder

end

end WorkflowExpr.Template
