import WorkflowExpr.Json.Raw
import WorkflowExpr.Span.Basic

/-!
Reading a serialized span: an object with the members `start` and `end`, each once and in any
order, or an array of the two offsets. Other members are passed over whatever they hold.
-/

namespace WorkflowExpr.Span

open Json (Fault)

/-- The offset that the text of a value writes: a whole number of thirty-two bits. -/
def offset? (raw : List Char) : Option UInt32 :=
  match Json.parse (String.ofList raw) with
  | .ok (.int i) => if 0 ≤ i ∧ i < 1 <<< 32 then some (.ofNat i.toNat) else none
  | _ => none

/-- The offset in the only member of a name. -/
def memberOffset? (name : String) (members : List (String × List Char)) : Option UInt32 :=
  match members.filter fun member => member.1 == name with
  | [(_, raw)] => offset? raw
  | _ => none

def ofMembers? (members : List (String × List Char)) : Option Span := do
  return ⟨← memberOffset? "start" members, ← memberOffset? "end" members⟩

def ofItems? : List (List Char) → Option Span
  | [start, stop] => do return ⟨← offset? start, ← offset? stop⟩
  | _ => none

def readText (text : List Char) : Except Fault (Option Span) :=
  match Json.Reader.skipSpace text with
  | '\x7b' :: rest => do
      let (members, rest) ← Json.Reader.readObject Json.Reader.readString Json.Raw.readRaw rest
      Json.Reader.readEnd rest
      return ofMembers? members
  | '[' :: rest => do
      let (items, rest) ← Json.Reader.readArray Json.Raw.readRaw rest
      Json.Reader.readEnd rest
      return ofItems? items
  | _ => return none

def parse? (text : String) : Option Span := (readText text.toList).toOption.join

end WorkflowExpr.Span
