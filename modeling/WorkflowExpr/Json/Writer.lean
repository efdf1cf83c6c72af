import WorkflowExpr.Decimal.Layout
import WorkflowExpr.Decimal.Shortest
import WorkflowExpr.Json.Basic

/-!
JSON text, on one line or indented by two spaces a level. The leaves (quoted strings, whole
numbers, other numbers) and the layout of containers are functions of their own, so that
other trees can be written in the same format.
-/

namespace WorkflowExpr.Json

/-- How containers are laid out. -/
inductive Style where
  | compact
  | pretty
deriving DecidableEq, Repr

namespace Style

/-- What stands in front of an item or a closing bracket at a nesting level. -/
def lineBreak : Style → Nat → List Char
  | .compact, _ => []
  | .pretty, level => '\n' :: List.replicate (2 * level) ' '

def colon : Style → List Char
  | .compact => [':']
  | .pretty => [':', ' ']

/-- Items between brackets. The level is that of the brackets. -/
def enclose (style : Style) (level : Nat) (opening closing : Char) (items : List (List Char)) :
    List Char :=
  if items.isEmpty then [opening, closing]
  else
    opening :: [','].intercalate (items.map (style.lineBreak (level + 1) ++ ·)) ++
      style.lineBreak level ++ [closing]

end Style

/-- A character inside a quoted string. Only quotes, backslashes and control characters are
escaped. -/
def escapeChar (c : Char) : List Char :=
  if c = '"' then ['\\', '"']
  else if c = '\\' then ['\\', '\\']
  else if c = '\x08' then ['\\', 'b']
  else if c = '\t' then ['\\', 't']
  else if c = '\n' then ['\\', 'n']
  else if c = '\x0c' then ['\\', 'f']
  else if c = '\r' then ['\\', 'r']
  else if c.toNat < 0x20 then
    ['\\', 'u', '0', '0', Nat.digitChar (c.toNat / 16), Nat.digitChar (c.toNat % 16)]
  else [c]

def quote (s : String) : List Char := '"' :: s.toList.flatMap escapeChar ++ ['"']

def intText (i : Int) : List Char :=
  (if i < 0 then ['-'] else []) ++ Nat.toDigits 10 i.natAbs

/-- Numbers from a hundred-thousandth up to sixteen digits have no exponent but always a
fraction. -/
def floatLayout : DecimalLayout := ⟨fun leading => -5 ≤ leading && leading < 16, true, 'e', 1⟩

/-- A number with a fraction or an exponent: the shortest decimal that reads back, a tie going
to the even digit. What is no finite number has no text but `null`. -/
def floatText : Binary64 → List Char
  | .finite negative m =>
      let d := if m.units = 0 then ⟨0, 0⟩ else m.shortest .toEven
      (if negative then ['-'] else []) ++ floatLayout.write d
  | _ => "null".toList

def boolText (b : Bool) : List Char := if b then "true".toList else "false".toList

mutual

/-- A document whose outermost brackets stand at a nesting level. -/
def write (style : Style) (level : Nat) : Json → List Char
  | .null => "null".toList
  | .bool b => boolText b
  | .int i => intText i
  | .float x => floatText x
  | .string s => quote s
  | .array items => style.enclose level '[' ']' (writeItems style (level + 1) items)
  | .object members => style.enclose level '\x7b' '\x7d' (writeMembers style (level + 1) members)

def writeItems (style : Style) (level : Nat) : List Json → List (List Char)
  | [] => []
  | item :: items => write style level item :: writeItems style level items

def writeMembers (style : Style) (level : Nat) : List (String × Json) → List (List Char)
  | [] => []
  | (name, value) :: members =>
      (quote name ++ style.colon ++ write style level value) :: writeMembers style level members

end

def toText (style : Style) (json : Json) : String := String.ofList (json.write style 0)

end WorkflowExpr.Json
