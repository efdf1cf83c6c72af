/-!
How many arguments a function takes.
-/

namespace WorkflowExpr

inductive Arity where
  | exactly (count : Nat)
  | atLeast (count : Nat)
deriving DecidableEq, Repr

namespace Arity

def accepts : Arity → Nat → Bool
  | .exactly count, given => given == count
  | .atLeast count, given => count ≤ given

def display : Arity → String
  | .exactly count => toString count
  | .atLeast count => "at least " ++ toString count

end Arity

end WorkflowExpr
