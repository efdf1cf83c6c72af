import WorkflowExpr.Proofs.Calls
import WorkflowExpr.Proofs.Json.Documents
import WorkflowExpr.Proofs.Json.StandsFor
import WorkflowExpr.Proofs.Ordered
import WorkflowExpr.Proofs.WholeNumbers

/-!
Values and their JSON text. A value of whole numbers is written as a document without
fractions, and what that document stands for has the same contents again, in containers of
its own. So the text of a value can be read back as far as containers may be nested.
-/

namespace WorkflowExpr

namespace Value

mutual

def depth : Value → Nat
  | .array _ items => depthOfItems items + 1
  | .object _ fields => depthOfFields fields + 1
  | _ => 0

def depthOfItems : List Value → Nat
  | [] => 0
  | item :: items => max item.depth (depthOfItems items)

def depthOfFields : List (String × Value) → Nat
  | [] => 0
  | (_, value) :: fields => max value.depth (depthOfFields fields)

end

/-- Values in which every number is whole. -/
inductive Whole : Value → Prop where
  | null : Whole .null
  | bool (b : Bool) : Whole (.bool b)
  | number {n : Binary64} (hwhole : n.IsWhole) : Whole (.number n)
  | string (s : String) : Whole (.string s)
  | array (identity : Identity) {items : List Value} (hitems : ∀ item ∈ items, Whole item) :
      Whole (.array identity items)
  | object (identity : Identity) {fields : List (String × Value)}
      (hfields : ∀ field ∈ fields, Whole field.2) : Whole (.object identity fields)

/-! The document of a value. -/

theorem itemsToJson_eq_map (items : List Value) : itemsToJson items = items.map toJson := by
  induction items with
  | nil => rfl
  | cons item items ih => rw [itemsToJson, ih, List.map_cons]

theorem fieldsToJson_eq_map (fields : List (String × Value)) :
    fieldsToJson fields = fields.map fun field => (field.1, field.2.toJson) := by
  induction fields with
  | nil => rfl
  | cons field fields ih => rw [fieldsToJson, ih, List.map_cons]

theorem writeItems_eq_map (style : Json.Style) (level : Nat) (items : List Value) :
    writeItems style level items = items.map (write style level) := by
  induction items with
  | nil => rfl
  | cons item items ih => rw [writeItems, ih, List.map_cons]

theorem writeFields_eq_map (style : Json.Style) (level : Nat) (fields : List (String × Value)) :
    writeFields style level fields =
      fields.map fun field => Json.quote field.1 ++ style.colon ++ write style level field.2 := by
  induction fields with
  | nil => rfl
  | cons field fields ih => rw [writeFields, ih, List.map_cons]

theorem depthOfItems_eq_foldr (items : List Value) :
    depthOfItems items = (items.map depth).foldr max 0 := by
  induction items with
  | nil => rfl
  | cons item items ih => rw [depthOfItems, ih, List.map_cons, List.foldr_cons]

theorem depthOfFields_eq_foldr (fields : List (String × Value)) :
    depthOfFields fields = (fields.map fun field => field.2.depth).foldr max 0 := by
  induction fields with
  | nil => rfl
  | cons field fields ih => rw [depthOfFields, ih, List.map_cons, List.foldr_cons]

theorem write_numberToJson (style : Json.Style) (level : Nat) (n : Binary64) :
    (numberToJson n).write style level = numberText n := by
  unfold numberToJson numberText
  cases n.whole? with
  | some i => rfl
  | none => cases n <;> rfl

/-- A value is written as its document is. -/
theorem write_toJson (style : Json.Style) (level : Nat) (v : Value) :
    v.toJson.write style level = v.write style level := by
  induction v generalizing level with
  | number n => exact write_numberToJson style level n
  | array identity items ih =>
      have hitems : (items.map toJson).map (Json.write style (level + 1)) =
          items.map (write style (level + 1)) := by
        rw [List.map_map]
        exact List.map_congr_left fun item member => ih item member (level + 1)
      rw [toJson, itemsToJson_eq_map, Json.write, Json.writeItems_eq_map, hitems, write,
        writeItems_eq_map]
  | object identity fields ih =>
      have hfields : (fields.map fun field => (field.1, field.2.toJson)).map
          (Json.Reader.memberText style.gap (Json.write style (level + 1))) =
          fields.map fun field =>
            Json.quote field.1 ++ style.colon ++ write style (level + 1) field.2 := by
        rw [List.map_map]
        refine List.map_congr_left fun field member => ?_
        rw [Function.comp_apply, Json.Reader.memberText, ih field member, Json.Style.colon_eq]
      rw [toJson, fieldsToJson_eq_map, Json.write, Json.writeMembers_eq_map, hfields, write,
        writeFields_eq_map]
  | _ => rfl

theorem toText_toJson (style : Json.Style) (v : Value) :
    v.toJson.toText style = v.toJsonText style := by
  rw [Json.toText, write_toJson, toJsonText]

theorem depth_numberToJson (n : Binary64) : (numberToJson n).depth = 0 := by
  unfold numberToJson
  cases n.whole? with
  | some i => rfl
  | none => cases n <;> rfl

theorem depth_toJson (v : Value) : v.toJson.depth = v.depth := by
  induction v with
  | number n => exact depth_numberToJson n
  | array identity items ih =>
      have hitems : (items.map toJson).map Json.depth = items.map depth := by
        rw [List.map_map]
        exact List.map_congr_left ih
      rw [toJson, itemsToJson_eq_map, Json.depth, Json.depthOfItems_eq_foldr, hitems, depth,
        depthOfItems_eq_foldr]
  | object identity fields ih =>
      have hfields : (fields.map fun field => (field.1, field.2.toJson)).map
          (fun member => member.2.depth) = fields.map fun field => field.2.depth := by
        rw [List.map_map]
        exact List.map_congr_left ih
      rw [toJson, fieldsToJson_eq_map, Json.depth, Json.depthOfMembers_eq_foldr, hfields, depth,
        depthOfFields_eq_foldr]
  | _ => rfl

theorem numberToJson_eq_int {n : Binary64} {i : Int} (h : i.natAbs ≤ Binary64.maxWhole)
    (hposition : n.position? = some (i * Magnitude.unitsPerOne)) : numberToJson n = .int i := by
  unfold numberToJson
  rw [Binary64.whole?_eq_some h hposition]

theorem Whole.toJson {v : Value} (h : v.Whole) : v.toJson.Whole := by
  induction h with
  | null => exact .null
  | bool b => exact .bool b
  | @number n hwhole =>
      obtain ⟨i, hsmall, hposition⟩ := hwhole
      rw [Value.toJson, numberToJson_eq_int hsmall hposition]
      rw [Binary64.maxWhole] at hsmall
      exact .int (by omega) (by omega)
  | string s => exact .string s
  | array identity hitems ih =>
      rw [Value.toJson, itemsToJson_eq_map]
      refine .array fun json hjson => ?_
      obtain ⟨item, hitem, rfl⟩ := List.mem_map.mp hjson
      exact ih item hitem
  | object identity hfields ih =>
      rw [Value.toJson, fieldsToJson_eq_map]
      refine .object fun member hmember => ?_
      obtain ⟨field, hfield, rfl⟩ := List.mem_map.mp hmember
      exact ih field hfield

/-! What the document of a value stands for. -/

/-- What stands for the document of an object has its fields in the same order. -/
theorem Ordered.ascending_of_pointwise {identity : Identity} {fields values : List (String × Value)}
    (hordered : (Value.object identity fields).Ordered)
    (hvalues : Fields.Pointwise StandsFor values
      (fields.map fun field => (field.1, field.2.toJson))) :
    Fields.Ascending values := by
  have hnames : Fields.names values = Fields.names fields := by
    rw [hvalues.names_eq, Fields.names, List.map_map]
    rfl
  cases hordered with
  | object _ hascending _ => rwa [Fields.Ascending, hnames]

/-- The document of a value of whole numbers stands for values of the same contents. -/
theorem sameContents_of_standsFor {v w : Value} (hwhole : v.Whole) (hordered : v.Ordered)
    (h : w.StandsFor v.toJson) : w.sameContents v = true := by
  induction v generalizing w with
  | null =>
      obtain ⟨start, rfl⟩ := h
      rfl
  | bool b =>
      obtain ⟨start, rfl⟩ := h
      exact beq_self_eq_true b
  | number n =>
      cases hwhole with
      | number hwhole =>
          obtain ⟨start, rfl⟩ := h
          obtain ⟨i, hsmall, hposition⟩ := hwhole
          rw [Value.toJson, numberToJson_eq_int hsmall hposition]
          exact Binary64.numericEq_of_position? (Binary64.position?_ofInt hsmall) hposition
  | string s =>
      obtain ⟨start, rfl⟩ := h
      exact beq_self_eq_true s
  | array identity items ih =>
      cases hwhole with
      | array _ hwhole =>
          rw [Value.toJson, itemsToJson_eq_map] at h
          obtain ⟨_, values, rfl, hvalues⟩ := h.array
          rw [List.forall₂_map_right_iff] at hvalues
          exact sameItems_of_forall₂ (forall₂_imp_of_mem hvalues fun item member w hw =>
            ih item member (hwhole item member) (hordered.item member) hw)
  | object identity fields ih =>
      cases hwhole with
      | object _ hwhole =>
          rw [Value.toJson, fieldsToJson_eq_map] at h
          obtain ⟨_, values, rfl, hvalues⟩ := h.object
          rw [Fields.ofList_eq_self (hordered.ascending_of_pointwise hvalues)]
          rw [Fields.Pointwise, List.forall₂_map_right_iff] at hvalues
          exact sameFields_of_pointwise (forall₂_imp_of_mem hvalues fun field member w hw =>
            ⟨hw.1, ih field member (hwhole field member) (hordered.field member) hw.2⟩)

theorem classify_eq_of_sameContents {v w : Value} (h : v.sameContents w = true) :
    v.classify = w.classify := by
  cases v <;> cases w <;> first | rfl | cases h

end Value

namespace Builtin

/-- A value of whole numbers has a JSON text. Reading the text gives a value of the same
contents and of the type of its kind if containers are nested at most 127 levels deep, and is
refused if they are nested deeper. -/
theorem json_round_trip {r : TypedValue} (hwhole : r.value.Whole) (hordered : r.value.Ordered) :
    ∃ text, (∀ next, registry.call "toJSON" [r] next = .ok (.ofString text, next)) ∧
      (r.value.depth ≤ 127 → ∀ next, ∃ v last,
        registry.call "fromJSON" [.ofString text] next = .ok (⟨v, r.value.classify⟩, last) ∧
          v.sameContents r.value = true) ∧
      (127 < r.value.depth → ∀ next, ∃ error,
        registry.call "fromJSON" [.ofString text] next =
          .error (.invalidArgument "fromJSON" (.json error)) ∧ error.cause = .tooDeep) := by
  have hparse := hwhole.toJson.parse_toText .pretty
  rw [Value.depth_toJson, Value.toText_toJson, Json.Reader.depthLimit] at hparse
  refine ⟨r.value.toJsonText .pretty, call_toJson r, fun hfits next => ?_, fun hdeep next => ?_⟩
  · have hsame := Value.sameContents_of_standsFor hwhole hordered ⟨next, rfl⟩
    refine ⟨_, ((Value.ofJson r.value.toJson).run next).2, ?_, hsame⟩
    rw [call_fromJson, hparse.1 hfits, ← Value.classify_eq_of_sameContents hsame]
    rfl
  · obtain ⟨error, herror, hcause⟩ := hparse.2 hdeep
    refine ⟨error, ?_, hcause⟩
    rw [call_fromJson, herror]
    rfl

/-- An array with a whole number in an object whose only name has to be escaped. -/
def escapedValue : Value :=
  .object 0 [("a\"\n", .array 1 [.number (.ofInt 3), .null])]

theorem json_round_trip_escaped :
    (TypedValue.ofValue escapedValue).value.Whole ∧
    (TypedValue.ofValue escapedValue).value.Ordered ∧
    ∃ text, (∀ next, registry.call "toJSON" [.ofValue escapedValue] next =
        .ok (.ofString text, next)) ∧
      ∀ next, ∃ v last,
        registry.call "fromJSON" [.ofString text] next = .ok (⟨v, .anyObject⟩, last) ∧
          v.sameContents escapedValue = true := by
  have hthree : (Binary64.ofInt 3).IsWhole :=
    ⟨3, by decide, Binary64.position?_ofInt (by decide)⟩
  have hwhole : escapedValue.Whole := by
    refine .object 0 fun field hfield => ?_
    cases List.mem_singleton.mp hfield
    refine .array 1 fun item hitem => ?_
    rcases List.mem_cons.mp hitem with rfl | hitem
    · exact .number hthree
    · cases List.mem_singleton.mp hitem
      exact .null
  have hordered : escapedValue.Ordered := by
    refine .object 0 (List.pairwise_singleton _ _) fun field hfield => ?_
    cases List.mem_singleton.mp hfield
    refine .array 1 fun item hitem => ?_
    rcases List.mem_cons.mp hitem with rfl | hitem
    · exact .number _
    · cases List.mem_singleton.mp hitem
      exact .null
  have hdepth : escapedValue.depth ≤ 127 := by decide
  obtain ⟨text, hwrite, hread, -⟩ := json_round_trip (r := .ofValue escapedValue) hwhole hordered
  exact ⟨hwhole, hordered, text, hwrite, hread hdepth⟩

end Builtin

end WorkflowExpr
