import WorkflowExpr.Coercion
import WorkflowExpr.Json.Reader
import WorkflowExpr.Registry
import WorkflowExpr.Value.Json

/-!
The seven functions that every expression can call. Three search in strings and arrays, one
joins an array to a string, one fills a template, and two go to JSON and back.
-/

namespace WorkflowExpr.Builtin

/-- The argument at a position. The arity check makes sure that it is there. -/
def argument (function : String) (args : List TypedValue) (index : Nat) :
    Evaluation TypedValue :=
  match args[index]? with
  | some arg => return arg
  | none => throw (.internal (.missingArgument function index))

def lowerText (r : TypedValue) : List Char := (Text.lowercase r.toText).toList

def startsWith (args : List TypedValue) : Evaluation TypedValue := do
  let whole ← argument "startsWith" args 0
  let part ← argument "startsWith" args 1
  return .ofBool ((lowerText part).isPrefixOf (lowerText whole))

def endsWith (args : List TypedValue) : Evaluation TypedValue := do
  let whole ← argument "endsWith" args 0
  let part ← argument "endsWith" args 1
  return .ofBool ((lowerText part).isSuffixOf (lowerText whole))

def isWithin (part : List Char) : List Char → Bool
  | [] => part.isEmpty
  | c :: rest => part.isPrefixOf (c :: rest) || isWithin part rest

/-- Whether an array has an element equal to the second argument, or whether the first
argument's string form has the second's inside, ignoring case. -/
def contains (args : List TypedValue) : Evaluation TypedValue := do
  let whole ← argument "contains" args 0
  let part ← argument "contains" args 1
  match whole.value with
  | .array _ items =>
      return .ofBool (items.any fun item => TypedValue.equal (.ofValue item) part)
  | _ => return .ofBool (isWithin (lowerText part) (lowerText whole))

/-- The string forms of an array's elements with a separator between them, by default a
comma. An object gives the empty string, and any other value is returned as it is. -/
def join (args : List TypedValue) : Evaluation TypedValue := do
  let first ← argument "join" args 0
  match first.value with
  | .array _ items =>
      let separator :=
        match args[1]? with
        | some arg => arg.toText
        | none => ","
      let texts := items.map fun item => (TypedValue.ofValue item).toText
      return .ofString (separator.intercalate texts)
  | .object _ _ => return .ofString ""
  | _ => return first

/-- The first argument as a template, filled with the string forms of the others. -/
def format (args : List TypedValue) : Evaluation TypedValue := do
  let first ← argument "format" args 0
  let template := first.toText
  match Template.expand ((args.drop 1).map TypedValue.toText) template.toList with
  | .ok text => return .ofString (String.ofList text)
  | .error fault => throw (.invalidArgument "format" (.template template fault))

def toJson (args : List TypedValue) : Evaluation TypedValue := do
  let first ← argument "toJSON" args 0
  return .ofString (first.value.toJsonText .pretty)

def fromJson (args : List TypedValue) : Evaluation TypedValue := do
  let first ← argument "fromJSON" args 0
  match Json.parse first.toText with
  | .ok json => return .ofValue (← Evaluation.ofFresh (Value.ofJson json))
  | .error error => throw (.invalidArgument "fromJSON" (.json error))

def callables : List Callable :=
  [⟨"startsWith", .exactly 2, startsWith⟩, ⟨"endsWith", .exactly 2, endsWith⟩,
    ⟨"contains", .exactly 2, contains⟩, ⟨"join", .atLeast 1, join⟩,
    ⟨"format", .atLeast 1, format⟩, ⟨"toJSON", .exactly 1, toJson⟩,
    ⟨"fromJSON", .exactly 1, fromJson⟩]

def registry : Registry := .ofList callables

end WorkflowExpr.Builtin
