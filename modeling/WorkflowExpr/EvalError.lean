import WorkflowExpr.Arity
import WorkflowExpr.Json.SyntaxError
import WorkflowExpr.Numeral.Write
import WorkflowExpr.Template
import WorkflowExpr.Ty.Basic

/-!
The errors of evaluation, as causes. An error ends the whole evaluation. Functions that are
not built in give causes in words of their own, for which three of the types have a
constructor that holds a text.
-/

namespace WorkflowExpr

inductive Mismatch where
  | property (name : String) (found : Tag)
  | index (found : Tag)
  | other (text : String)
deriving DecidableEq

inductive Rejection where
  | template (text : String) (fault : Template.Fault)
  | json (error : Json.SyntaxError)
  | other (text : String)
deriving DecidableEq

/-- A state that evaluation on its own never reaches. -/
inductive Inconsistency where
  | typeTag (ty : Ty) (found : Tag)
  | missingArgument (function : String) (index : Nat)
  | other (text : String)
deriving DecidableEq

inductive EvalError where
  | unknownVariable (name : String)
  | unknownProperty (name : String)
  | typeMismatch (mismatch : Mismatch)
  | indexOutOfRange (index : Binary64) (length : Nat)
  | unknownFunction (name : String)
  | arityMismatch (function : String) (expected : Arity) (given : Nat)
  | invalidArgument (function : String) (rejection : Rejection)
  | internal (inconsistency : Inconsistency)
deriving DecidableEq

def Mismatch.text : Mismatch → String
  | .property name found => "cannot access property '" ++ name ++ "' on " ++ found.name
  | .index found => "index access is not supported on " ++ found.name
  | .other text => text

def Rejection.text : Rejection → String
  | .template text .malformedPlaceholder => "malformed placeholder in '" ++ text ++ "'"
  | .template _ (.missingArgument index) =>
      "placeholder \x7b" ++ toString index ++ "\x7d has no argument"
  | .template text .unbalancedBrace => "unbalanced '\x7d' in '" ++ text ++ "'"
  | .json error => error.message
  | .other text => text

def Inconsistency.text : Inconsistency → String
  | .typeTag ty found =>
      "type tag " ++ ty.display ++ " does not describe a " ++ found.name ++ " value"
  | .missingArgument function index =>
      function ++ ": missing argument " ++ toString index ++ " after arity check"
  | .other text => text

def EvalError.message : EvalError → String
  | .unknownVariable name => "unknown variable access: " ++ name
  | .unknownProperty name => "unknown context access: " ++ name
  | .typeMismatch mismatch => "type mismatch: " ++ mismatch.text
  | .indexOutOfRange index length =>
      "index out of range: " ++ Numeral.writePlain index ++
        " (length " ++ toString length ++ ")"
  | .unknownFunction name => "unknown function: " ++ name
  | .arityMismatch function expected given =>
      "invalid number of arguments for " ++ function ++ ". expected " ++ expected.display ++
        ", got " ++ toString given
  | .invalidArgument function rejection =>
      "invalid argument to " ++ function ++ ": " ++ rejection.text
  | .internal inconsistency => "internal evaluator error: " ++ inconsistency.text

end WorkflowExpr
