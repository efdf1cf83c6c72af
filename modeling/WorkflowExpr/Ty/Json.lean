import WorkflowExpr.Json.Basic
import WorkflowExpr.Ty.Basic

/-!
The serialized form of a type: an object whose member `kind` names the kind, with the members
`elem` of an array type and `props` and `mapped` of an object type. The order of the members
is free, none of these may occur twice, and further members are passed over. In place of the
object there may be an array that holds the kind and then the other parts in this order, and
inside another type a kind may also be given by its number.
-/

namespace WorkflowExpr.Ty

mutual

def toJson : Ty → Json
  | .array elem => .object [("kind", .string "array"), ("elem", toJson elem)]
  | .object props mapped =>
      .object [("kind", .string "object"), ("props", .object (propsToJson props)),
        ("mapped", toJson mapped)]
  | ty => .object [("kind", .string ty.tag.name)]

def propsToJson : List (String × Ty) → List (String × Json)
  | [] => []
  | (name, ty) :: props => (name, toJson ty) :: propsToJson props

end

inductive Place where
  | outermost
  | inner
deriving DecidableEq, Repr

/-- The kind that a document gives by name, or inside another type also by number. -/
def kindOf? : Place → Json → Option Tag
  | _, .string name => Tag.ofName? name
  | .inner, .int i => if 0 ≤ i then Tag.ofNumber? i.toNat else none
  | _, _ => none

/-- The type of a kind whose types have no parts. -/
def ofTag? : Tag → Option Ty
  | .any => some .any
  | .null => some .null
  | .bool => some .bool
  | .number => some .number
  | .string => some .string
  | .array | .object => none

/-- The members of a serialized type that matter, each read as far as it can be. -/
structure Members where
  kind : Option Tag
  elem : Option Ty
  props : Option (Fields Ty)
  mapped : Option Ty

def ofMembers? (members : Members) : Option Ty :=
  match members.kind with
  | some .array => members.elem.map .array
  | some .object => do return .object (← members.props) (← members.mapped)
  | some tag => ofTag? tag
  | none => none

/-- The kind in the only member that gives one. -/
def kindMember? (place : Place) (members : List (String × Json)) : Option Tag :=
  match members.filter fun member => member.1 == "kind" with
  | [(_, kind)] => kindOf? place kind
  | _ => none

mutual

def ofJson? (place : Place) : Json → Option Ty
  | .object members =>
      ofMembers?
        { kind := kindMember? place members, elem := typeMember? "elem" members,
          props := propsMember? members, mapped := typeMember? "mapped" members }
  | .array [kind] => (kindOf? place kind).bind ofTag?
  | .array [kind, elem] =>
      if kindOf? place kind = some .array then (ofJson? .inner elem).map .array else none
  | .array [kind, props, mapped] =>
      if kindOf? place kind = some .object then do
        return .object (← propsOf? props) (← ofJson? .inner mapped)
      else none
  | _ => none

/-- The type in the only member of a name. -/
def typeMember? (name : String) : List (String × Json) → Option Ty
  | [] => none
  | (other, value) :: members =>
      if other ≠ name then typeMember? name members
      else if name ∈ members.map Prod.fst then none
      else ofJson? .inner value

def propsMember? : List (String × Json) → Option (Fields Ty)
  | [] => none
  | (other, value) :: members =>
      if other ≠ "props" then propsMember? members
      else if "props" ∈ members.map Prod.fst then none
      else propsOf? value

def propsOf? : Json → Option (Fields Ty)
  | .object props => (typesOf? props).map Fields.ofList
  | _ => none

def typesOf? : List (String × Json) → Option (List (String × Ty))
  | [] => some []
  | (name, value) :: members => do
      return (name, ← ofJson? .inner value) :: (← typesOf? members)

end

end WorkflowExpr.Ty
