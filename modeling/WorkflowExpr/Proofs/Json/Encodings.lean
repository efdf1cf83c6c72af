import WorkflowExpr.Proofs.Json.StandsFor
import WorkflowExpr.Proofs.NumberRoundTrip

/-!
Values and their documents. A value has one JSON text, whether it is written at once or as the
document it becomes. The document keeps everything but what JSON has no form for: the
identities of containers, numbers that are not finite, and the sign of a zero. Every other
number comes back as it was, the whole ones by way of an integer.
-/

namespace WorkflowExpr.Value

/-- A value with one and the same identity in all its containers. Unlike `sameContents`, which
compares numbers as numbers, equal contents have equal numbers in equal places. -/
def contents (v : Value) : Value := v.rename fun _ => 0

/-- What JSON keeps of a number: null in place of one that is not finite, and the positive zero
for both zeros. -/
def keptNumber (n : Binary64) : Value :=
  if n.isNaN || n.isInfinite then .null
  else if n.isZero then .number .zero
  else .number n

mutual

def kept : Value → Value
  | .number n => keptNumber n
  | .array identity items => .array identity (keptItems items)
  | .object identity fields => .object identity (keptFields fields)
  | v => v

def keptItems : List Value → List Value
  | [] => []
  | item :: items => kept item :: keptItems items

def keptFields : List (String × Value) → List (String × Value)
  | [] => []
  | (name, value) :: fields => (name, kept value) :: keptFields fields

end

def fieldContents (field : String × Value) : String × Value := (field.1, field.2.contents)

theorem contents_array (identity : Identity) (items : List Value) :
    (Value.array identity items).contents = .array 0 (items.map contents) := by
  rw [contents, rename, renameItems_eq_map]
  rfl

theorem contents_object (identity : Identity) (fields : List (String × Value)) :
    (Value.object identity fields).contents = .object 0 (fields.map fieldContents) := by
  rw [contents, rename, renameFields_eq_map]
  rfl

theorem keptItems_eq_map (items : List Value) : keptItems items = items.map kept := by
  induction items with
  | nil => rfl
  | cons item items ih => rw [keptItems, ih, List.map_cons]

theorem keptFields_eq_map (fields : List (String × Value)) :
    keptFields fields = fields.map fun field => (field.1, field.2.kept) := by
  induction fields with
  | nil => rfl
  | cons field fields ih => rw [keptFields, ih, List.map_cons]

theorem keptNumber_finite (negative : Bool) (m : Magnitude) :
    keptNumber (.finite negative m) = .number (.finite (negative && m.units != 0) m) := by
  have hfinite : ((Binary64.finite negative m).isNaN || (Binary64.finite negative m).isInfinite)
      = false := rfl
  rw [keptNumber, hfinite, if_neg Bool.false_ne_true]
  by_cases hzero : m.units = 0
  · have hm : m = .zero := Magnitude.eq_of_units hzero
    subst hm
    have hsign : (negative && Magnitude.zero.units != 0) = false := Bool.and_false negative
    rw [hsign]
    rfl
  · rw [if_neg (by simpa [Binary64.isZero] using hzero), bne_iff_ne.mpr hzero, Bool.and_true]

/-- The document of a number stands for what JSON keeps of it. -/
theorem ofJson_numberToJson (n : Binary64) : ofJson (numberToJson n) = pure (keptNumber n) := by
  cases n with
  | nan => rfl
  | infinite negative => rfl
  | finite negative m =>
      rw [keptNumber_finite, numberToJson]
      rcases Binary64.whole?_finite negative m with ⟨w, -, hunits, hwhole⟩ | ⟨hnone, hwhole⟩
      · rw [hwhole]
        simp only [ofJson, Binary64.ofInt_signed negative hunits]
      · have hnonzero : m.units ≠ 0 := fun hzero =>
          hnone 0 (Nat.zero_le _) (by rw [hzero, Nat.zero_mul])
        rw [hwhole, bne_iff_ne.mpr hnonzero, Bool.and_true]
        rfl

theorem map_eq_map_of_forall₂ {α β γ : Type} {f : α → γ} {g : β → γ} {as : List α} {bs : List β}
    (h : List.Forall₂ (fun a b => f a = g b) as bs) : as.map f = bs.map g := by
  rw [← List.forall₂_eq_eq_eq, List.forall₂_map_left_iff, List.forall₂_map_right_iff]
  exact h

/-- The document of a value stands for what JSON keeps of the value. -/
theorem contents_of_standsFor {v w : Value} (hordered : v.Ordered) (h : w.StandsFor v.toJson) :
    w.contents = v.kept.contents := by
  induction v generalizing w with
  | number n =>
      obtain ⟨start, rfl⟩ := h
      rw [toJson, ofJson_numberToJson]
      rfl
  | array identity items ih =>
      rw [toJson, itemsToJson_eq_map] at h
      obtain ⟨_, values, rfl, hvalues⟩ := h.array
      rw [List.forall₂_map_right_iff] at hvalues
      have hitems : values.map contents = items.map (contents ∘ kept) :=
        map_eq_map_of_forall₂ (forall₂_imp_of_mem hvalues fun item member w hw =>
          ih item member (hordered.item member) hw)
      rw [kept, contents_array, contents_array, hitems, keptItems_eq_map, List.map_map]
  | object identity fields ih =>
      rw [toJson, fieldsToJson_eq_map] at h
      obtain ⟨_, values, rfl, hvalues⟩ := h.object
      have hascending : Fields.Ascending values := hordered.ascending_of_pointwise hvalues
      rw [Fields.Pointwise, List.forall₂_map_right_iff] at hvalues
      have hfields : values.map fieldContents =
          fields.map (fieldContents ∘ fun field => (field.1, field.2.kept)) :=
        map_eq_map_of_forall₂ (forall₂_imp_of_mem hvalues fun field member w hw =>
          Prod.ext hw.1 (ih field member (hordered.field member) hw.2))
      rw [kept, Fields.ofList_eq_self hascending, contents_object, contents_object, hfields,
        keptFields_eq_map, List.map_map]
  | _ =>
      obtain ⟨start, rfl⟩ := h
      rfl

/-- A value has the same text as its document, on one line and indented. The document stands
for the value itself but for the identities, with null in place of every number that is not
finite and the positive zero in place of the negative one. -/
theorem json_encodings_agree (v : Value) :
    (∀ style, v.toJson.toText style = v.toJsonText style) ∧
      (v.Ordered → ∀ next, ((ofJson v.toJson).run next).1.contents = v.kept.contents) :=
  ⟨fun style => toText_toJson style v,
    fun hordered next => contents_of_standsFor hordered ⟨next, rfl⟩⟩

def leastMagnitude : Magnitude := ⟨1, by decide +kernel⟩

/-- An object of an array with numbers that JSON has no form for and one that it has. -/
def oddNumbers : Value :=
  .object 4 [("n", .array 4 [.number .nan, .number (.finite true .zero),
    .number (.finite true leastMagnitude), .number (.infinite true)])]

theorem json_encodings_agree_oddNumbers :
    oddNumbers.Ordered ∧
      ((ofJson oddNumbers.toJson).run 7).1.contents =
        .object 0 [("n", .array 0 [.null, .number .zero,
          .number (.finite true leastMagnitude), .null])] := by
  have hordered : oddNumbers.Ordered := by
    refine .object 4 (List.pairwise_singleton _ _) fun field hfield => ?_
    cases List.mem_singleton.mp hfield
    refine .array 4 fun item hitem => Ordered.of_isPrimitive ?_
    simp only [List.mem_cons, List.not_mem_nil, or_false] at hitem
    rcases hitem with rfl | rfl | rfl | rfl <;> rfl
  exact ⟨hordered, (json_encodings_agree oddNumbers).2 hordered 7⟩

end WorkflowExpr.Value
