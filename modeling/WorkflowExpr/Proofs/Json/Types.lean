import WorkflowExpr.Proofs.Fields
import WorkflowExpr.Proofs.Json.Documents
import WorkflowExpr.Ty.Json

/-!
Types and their JSON text. The members of a serialized type are found by their names at one level
only: the names of properties stand a level further down, in an object of their own, and so they
can be any names, those of the members among them. A type is read back from its document wherever
it stands, and from its text as far as containers may be nested.
-/

namespace WorkflowExpr.Ty

/-- Types in which the names of the known properties ascend, at every depth. -/
inductive Ordered : Ty → Prop where
  | any : Ordered .any
  | null : Ordered .null
  | bool : Ordered .bool
  | number : Ordered .number
  | string : Ordered .string
  | array {elem : Ty} (helem : Ordered elem) : Ordered (.array elem)
  | object {props : Fields Ty} {mapped : Ty} (hascending : Fields.Ascending props)
      (hprops : ∀ prop ∈ props, Ordered prop.2) (hmapped : Ordered mapped) :
      Ordered (.object props mapped)

theorem propsToJson_eq_map (props : List (String × Ty)) :
    propsToJson props = props.map fun prop => (prop.1, toJson prop.2) := by
  induction props with
  | nil => rfl
  | cons prop props ih => rw [propsToJson, ih, List.map_cons]

/-- Properties are read back one by one. -/
theorem typesOf?_propsToJson {props : List (String × Ty)}
    (h : ∀ prop ∈ props, ofJson? .inner (toJson prop.2) = some prop.2) :
    typesOf? (propsToJson props) = some props := by
  induction props with
  | nil => rfl
  | cons prop props ih =>
      obtain ⟨hprop, hprops⟩ := List.forall_mem_cons.mp h
      rw [propsToJson, typesOf?, hprop, ih hprops]
      rfl

theorem propsOf?_propsToJson {props : Fields Ty} (hascending : Fields.Ascending props)
    (h : ∀ prop ∈ props, ofJson? .inner (toJson prop.2) = some prop.2) :
    propsOf? (.object (propsToJson props)) = some props := by
  rw [propsOf?, typesOf?_propsToJson h, Option.map_some, Fields.ofList_eq_self hascending]

/-- The kind is given by name in front, and no other member has that name. -/
theorem kindMember?_cons (place : Place) (tag : Tag) {members : List (String × Json)}
    (h : "kind" ∉ members.map Prod.fst) :
    kindMember? place (("kind", .string tag.name) :: members) = some tag := by
  have hothers : (members.filter fun member => member.1 == "kind") = [] := by
    rw [List.filter_eq_nil_iff]
    intro member hmember hkind
    exact h (List.mem_map.mpr ⟨member, hmember, beq_iff_eq.mp hkind⟩)
  have hmembers : (("kind", Json.string tag.name) :: members).filter
      (fun member => member.1 == "kind") = [("kind", .string tag.name)] := by
    rw [List.filter_cons, if_pos (beq_self_eq_true "kind"), hothers]
  rw [kindMember?, hmembers]
  cases place <;> exact Tag.ofName?_name tag

/-- A document with nothing but a kind describes a type without parts, or none. -/
theorem ofJson?_kind (place : Place) (tag : Tag) :
    ofJson? place (.object [("kind", .string tag.name)]) = ofTag? tag := by
  rw [ofJson?, kindMember?_cons place tag List.not_mem_nil]
  cases tag <;> rfl

theorem ofJson?_array (place : Place) (elem : Json) :
    ofJson? place (.object [("kind", .string "array"), ("elem", elem)]) =
      (ofJson? .inner elem).map .array := by
  have hother : "kind" ∉ [("elem", elem)].map Prod.fst := by simp
  have hkind := kindMember?_cons place .array hother
  rw [Tag.name] at hkind
  rw [ofJson?, hkind]
  rfl

theorem ofJson?_object (place : Place) (props mapped : Json) :
    ofJson? place (.object [("kind", .string "object"), ("props", props), ("mapped", mapped)]) = (do
      return .object (← propsOf? props) (← ofJson? .inner mapped)) := by
  have hothers : "kind" ∉ [("props", props), ("mapped", mapped)].map Prod.fst := by simp
  have hkind := kindMember?_cons place .object hothers
  rw [Tag.name] at hkind
  rw [ofJson?, hkind]
  rfl

/-- A type is read back from its document, wherever it stands. -/
theorem ofJson?_toJson {ty : Ty} (h : ty.Ordered) (place : Place) :
    ofJson? place ty.toJson = some ty := by
  induction h generalizing place with
  | any => exact ofJson?_kind place .any
  | null => exact ofJson?_kind place .null
  | bool => exact ofJson?_kind place .bool
  | number => exact ofJson?_kind place .number
  | string => exact ofJson?_kind place .string
  | array _ ih => rw [toJson, ofJson?_array, ih, Option.map_some]
  | object hascending _ _ ihprops ihmapped =>
      rw [toJson, ofJson?_object,
        propsOf?_propsToJson hascending fun prop member => ihprops prop member .inner, ihmapped]
      rfl

/-- There are no numbers in the document of a type. -/
theorem whole_toJson (ty : Ty) : ty.toJson.Whole := by
  induction ty with
  | array elem ih =>
      refine .object fun member hmember => ?_
      rcases List.mem_pair.mp hmember with rfl | rfl
      · exact .string _
      · exact ih
  | object props mapped ihprops ihmapped =>
      refine .object fun member hmember => ?_
      rcases List.mem_cons.mp hmember with rfl | hmember
      · exact .string _
      · rcases List.mem_pair.mp hmember with rfl | rfl
        · rw [propsToJson_eq_map]
          refine .object fun prop hprop => ?_
          obtain ⟨source, hsource, rfl⟩ := List.mem_map.mp hprop
          exact ihprops source hsource
        · exact ihmapped
  | _ =>
      refine .object fun member hmember => ?_
      cases List.mem_singleton.mp hmember
      exact .string _

/-! Whatever document a type is read from, the names of its properties ascend. -/

/-- What is read from the only member of a name. -/
def onlyMember? {α : Type} (read : Json → Option α) (name : String) :
    List (String × Json) → Option α
  | [] => none
  | (other, value) :: members =>
      if other ≠ name then onlyMember? read name members
      else if name ∈ members.map Prod.fst then none
      else read value

theorem typeMember?_eq (name : String) (members : List (String × Json)) :
    typeMember? name members = onlyMember? (ofJson? .inner) name members := by
  induction members with
  | nil => rfl
  | cons member members ih => rw [typeMember?, onlyMember?, ih]

theorem propsMember?_eq (members : List (String × Json)) :
    propsMember? members = onlyMember? propsOf? "props" members := by
  induction members with
  | nil => rfl
  | cons member members ih => rw [propsMember?, onlyMember?, ih]

theorem exists_mem_of_onlyMember? {α : Type} {read : Json → Option α} {name : String}
    {members : List (String × Json)} {a : α} (h : onlyMember? read name members = some a) :
    ∃ member ∈ members, read member.2 = some a := by
  induction members with
  | nil => cases h
  | cons member members ih =>
      rw [onlyMember?] at h
      split at h
      · obtain ⟨later, hlater, hread⟩ := ih h
        exact ⟨later, List.mem_cons_of_mem member hlater, hread⟩
      · split at h
        · cases h
        · exact ⟨member, List.mem_cons_self, h⟩

theorem exists_mem_of_typesOf? {members : List (String × Json)} {types : List (String × Ty)}
    (h : typesOf? members = some types) :
    ∀ prop ∈ types, ∃ member ∈ members, ofJson? .inner member.2 = some prop.2 := by
  induction members generalizing types with
  | nil =>
      cases h
      exact fun _ hprop => absurd hprop List.not_mem_nil
  | cons member members ih =>
      rw [typesOf?] at h
      obtain ⟨ty, hty, h⟩ := Option.bind_eq_some_iff.mp h
      obtain ⟨later, hlater, h⟩ := Option.bind_eq_some_iff.mp h
      cases h
      intro prop hprop
      rcases List.mem_cons.mp hprop with rfl | hprop
      · exact ⟨member, List.mem_cons_self, hty⟩
      · obtain ⟨source, hsource, hread⟩ := ih hlater prop hprop
        exact ⟨source, List.mem_cons_of_mem member hsource, hread⟩

/-- Known properties in the order that a map of them has, with ordered types. -/
def OrderedProps (props : Fields Ty) : Prop :=
  Fields.Ascending props ∧ ∀ prop ∈ props, prop.2.Ordered

theorem ordered_of_ofTag? {tag : Tag} {ty : Ty} (h : ofTag? tag = some ty) : ty.Ordered := by
  cases tag <;> cases h <;> constructor

/-- An object type has the parts that it is put together from. -/
theorem ordered_of_parts {props? : Option (Fields Ty)} {mapped? : Option Ty} {ty : Ty}
    (hprops : ∀ props, props? = some props → OrderedProps props)
    (hmapped : ∀ mapped, mapped? = some mapped → mapped.Ordered)
    (h : (do return .object (← props?) (← mapped?)) = some ty) : ty.Ordered := by
  obtain ⟨props, hpropsEq, h⟩ := Option.bind_eq_some_iff.mp h
  obtain ⟨mapped, hmappedEq, h⟩ := Option.bind_eq_some_iff.mp h
  cases h
  obtain ⟨hascending, hordered⟩ := hprops props hpropsEq
  exact .object hascending hordered (hmapped mapped hmappedEq)

theorem ordered_of_ofMembers? {members : Members} {ty : Ty}
    (helem : ∀ elem, members.elem = some elem → elem.Ordered)
    (hprops : ∀ props, members.props = some props → OrderedProps props)
    (hmapped : ∀ mapped, members.mapped = some mapped → mapped.Ordered)
    (h : ofMembers? members = some ty) : ty.Ordered := by
  rw [ofMembers?] at h
  split at h
  · obtain ⟨elem, heq, rfl⟩ := Option.map_eq_some_iff.mp h
    exact .array (helem elem heq)
  · exact ordered_of_parts hprops hmapped h
  · exact ordered_of_ofTag? h
  · cases h

/-- A document describes only ordered types, and only ordered properties. -/
theorem ordered_of_ofJson? (json : Json) :
    (∀ place ty, ofJson? place json = some ty → ty.Ordered) ∧
      ∀ props, propsOf? json = some props → OrderedProps props := by
  induction json with
  | array items ih =>
      refine ⟨fun place ty h => ?_, by rintro props ⟨⟩⟩
      -- an array holds the kind and then the parts, so its length tells which kind it can be
      rcases items with _ | ⟨kind, _ | ⟨second, _ | ⟨third, _ | ⟨fourth, rest⟩⟩⟩⟩
      · cases h
      · rw [ofJson?] at h
        obtain ⟨tag, -, h⟩ := Option.bind_eq_some_iff.mp h
        exact ordered_of_ofTag? h
      · rw [ofJson?] at h
        split at h
        · obtain ⟨elem, helem, rfl⟩ := Option.map_eq_some_iff.mp h
          exact .array ((ih second (by simp)).1 .inner elem helem)
        · cases h
      · rw [ofJson?] at h
        split at h
        · exact ordered_of_parts (ih second (by simp)).2 ((ih third (by simp)).1 .inner) h
        · cases h
      · cases h
  | object members ih =>
      have htype : ∀ name ty, typeMember? name members = some ty → ty.Ordered := by
        intro name ty h
        rw [typeMember?_eq] at h
        obtain ⟨member, hmember, hread⟩ := exists_mem_of_onlyMember? h
        exact (ih member hmember).1 .inner ty hread
      have hprops : ∀ props, propsMember? members = some props → OrderedProps props := by
        intro props h
        rw [propsMember?_eq] at h
        obtain ⟨member, hmember, hread⟩ := exists_mem_of_onlyMember? h
        exact (ih member hmember).2 props hread
      constructor
      · intro place ty h
        rw [ofJson?] at h
        exact ordered_of_ofMembers? (htype "elem") hprops (htype "mapped") h
      · intro props h
        rw [propsOf?] at h
        obtain ⟨types, htypes, rfl⟩ := Option.map_eq_some_iff.mp h
        refine ⟨Fields.ascending_ofList types, fun prop hprop => ?_⟩
        obtain ⟨member, hmember, hread⟩ :=
          exists_mem_of_typesOf? htypes prop (Fields.mem_ofList hprop)
        exact (ih member hmember).1 .inner prop.2 hread
  | _ => exact ⟨by rintro place ty ⟨⟩, by rintro props ⟨⟩⟩

/-- Whatever document a type was read from, it is read again from its own document. -/
theorem ofJson?_toJson_of_read {json : Json} {place : Place} {ty : Ty}
    (h : ofJson? place json = some ty) (other : Place) : ofJson? other ty.toJson = some ty :=
  ofJson?_toJson ((ordered_of_ofJson? json).1 place ty h) other

/-- Different types have different texts. -/
theorem toText_toJson_injective {a b : Ty} (ha : a.Ordered) (hb : b.Ordered) {style : Json.Style}
    (h : a.toJson.toText style = b.toJson.toText style) : a = b := by
  have hdocuments : a.toJson = b.toJson :=
    Json.Whole.toText_injective (whole_toJson a) (whole_toJson b) h
  have hread := ofJson?_toJson ha .outermost
  rw [hdocuments, ofJson?_toJson hb .outermost] at hread
  exact (Option.some.inj hread).symm

/-- A type is read back from its text as far as containers may be nested, and beyond that the
text is refused for its depth. The text shows the type in either case. -/
theorem serialized_round_trip {ty : Ty} (h : ty.Ordered) (style : Json.Style) :
    (ty.toJson.depth ≤ 127 →
      (Json.parse (ty.toJson.toText style)).toOption.bind (ofJson? .outermost) = some ty) ∧
    (127 < ty.toJson.depth → ∃ error,
      Json.parse (ty.toJson.toText style) = .error error ∧ error.cause = .tooDeep) ∧
    ∀ other : Ty, other.Ordered → other.toJson.toText style = ty.toJson.toText style →
      other = ty := by
  obtain ⟨hparse, hrefuse⟩ := (whole_toJson ty).parse_toText style
  refine ⟨fun hdepth => ?_, hrefuse, fun other hother => toText_toJson_injective hother h⟩
  rw [hparse hdepth, Except.toOption, Option.bind_some]
  exact ofJson?_toJson h .outermost

/-- Properties may have the names that the members of a serialized type have. -/
theorem serialized_round_trip_of_member_names :
    let ty : Ty :=
      .object [("elem", .array .any), ("kind", .string), ("mapped", .null), ("props", .bool)]
        (.array (.object [] .number))
    ty.Ordered ∧ ty.toJson.depth ≤ 127 ∧
      (Json.parse (ty.toJson.toText .compact)).toOption.bind (ofJson? .outermost) = some ty := by
  intro ty
  have hprops : ∀ prop ∈ [("elem", Ty.array .any), ("kind", .string), ("mapped", .null),
      ("props", .bool)], Ordered prop.2 := by
    simp only [List.forall_mem_cons]
    exact ⟨.array .any, .string, .null, .bool, nofun⟩
  have hordered : ty.Ordered :=
    .object (by decide) hprops (.array (.object (by decide) nofun .number))
  have hdepth : ty.toJson.depth ≤ 127 := by decide
  exact ⟨hordered, hdepth, (serialized_round_trip hordered .compact).1 hdepth⟩

end WorkflowExpr.Ty
