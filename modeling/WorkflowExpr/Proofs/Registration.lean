import Mathlib.Data.Finset.Card
import WorkflowExpr.Proofs.Calls
import WorkflowExpr.Proofs.Fields

/-!
Registering functions. Whatever was registered, and in whatever order, a registry is the map of
the list of all registered functions, the built-in ones first if it started from them. So a
name finds the latest function that has it but for case, there are as many functions as
different names in lower case, and a call does what that function does if it takes so many
arguments.
-/

namespace WorkflowExpr

namespace Fields

variable {α : Type}

theorem mem_names_foldl_insert (pairs : List (String × α)) (fields : Fields α) (name : String) :
    name ∈ names (pairs.foldl (fun fields pair => insert pair.1 pair.2 fields) fields) ↔
      name ∈ names fields ∨ name ∈ names pairs := by
  induction pairs generalizing fields with
  | nil => exact (or_iff_left List.not_mem_nil).symm
  | cons pair rest ih =>
      rw [List.foldl_cons, ih, mem_names_insert, or_comm (a := name = pair.1), or_assoc]
      exact or_congr_right List.mem_cons.symm

theorem mem_names_ofList (pairs : List (String × α)) (name : String) :
    name ∈ names (ofList pairs) ↔ name ∈ names pairs := by
  rw [ofList, mem_names_foldl_insert]
  exact or_iff_right List.not_mem_nil

/-- A map binds each name of the list it was built from once. -/
theorem length_ofList (pairs : List (String × α)) :
    (ofList pairs).length = (names pairs).toFinset.card := by
  have hnodup : (names (ofList pairs)).Nodup := by
    refine List.Pairwise.imp ?_ (ascending_ofList pairs)
    intro first second hlt heq
    exact String.lt_irrefl second (heq ▸ hlt)
  have hsame : (names (ofList pairs)).toFinset = (names pairs).toFinset := by
    ext name
    rw [List.mem_toFinset, List.mem_toFinset, mem_names_ofList]
  rw [← hsame, List.toFinset_card_of_nodup hnodup, names, List.length_map]

end Fields

namespace Registry

def lowerName (callable : Callable) : String := Text.lowercase callable.name

/-- A registry together with the functions registered in it, the latest last. It starts without
functions or with the built-in ones, and functions are added one after the other. -/
inductive Registered : Registry → List Callable → Prop where
  | empty : Registered .empty []
  | builtins : Registered Builtin.registry Builtin.callables
  | register {registry : Registry} {known : List Callable} (callable : Callable)
      (h : Registered registry known) :
      Registered (registry.register callable) (known ++ [callable])

/-- A function has a name but for case, and none that was registered later has it. -/
def Latest (known : List Callable) (name : String) (callable : Callable) : Prop :=
  ∃ earlier later, known = earlier ++ callable :: later ∧
    lowerName callable = Text.lowercase name ∧
      ∀ other ∈ later, lowerName other ≠ Text.lowercase name

/-- Only the list of registered functions counts, not how the registry began. -/
theorem Registered.eq_ofList {registry : Registry} {known : List Callable}
    (h : Registered registry known) : registry = ofList known := by
  induction h with
  | empty => rfl
  | builtins => rfl
  | register callable _ ih =>
      rw [ih, ofList, ofList, List.foldl_append, List.foldl_cons, List.foldl_nil]

theorem entries_ofList (known : List Callable) :
    (ofList known).entries =
      Fields.ofList (known.map fun callable => (lowerName callable, callable)) := by
  rw [Fields.ofList, List.foldl_map]
  exact (List.foldl_hom Registry.entries fun _ _ => rfl).symm

theorem size_ofList (known : List Callable) :
    (ofList known).size = (known.map lowerName).toFinset.card := by
  rw [size, entries_ofList, Fields.length_ofList, Fields.names, List.map_map]
  rfl

/-- A name finds the latest function that has it. -/
theorem get?_ofList_eq_some {known : List Callable} {name : String} {callable : Callable} :
    (ofList known).get? name = some callable ↔ Latest known name callable := by
  -- The list is searched from its end, so what was registered later comes before the hit.
  rw [get?_ofList, List.find?_eq_some_iff_append]
  constructor
  · rintro ⟨hname, after, before, hsplit, hafter⟩
    refine ⟨before.reverse, after.reverse, ?_, (beq_iff_eq.mp hname).symm, ?_⟩
    · rw [List.reverse_eq_iff.mp hsplit, List.reverse_append, List.reverse_cons, List.append_assoc]
      rfl
    · intro other member heq
      have hno := hafter other (List.mem_reverse.mp member)
      rw [Bool.not_eq_true', beq_eq_false_iff_ne] at hno
      exact hno heq.symm
  · rintro ⟨earlier, later, rfl, hname, hlater⟩
    refine ⟨beq_iff_eq.mpr hname.symm, later.reverse, earlier.reverse, ?_, ?_⟩
    · rw [List.reverse_append, List.reverse_cons, List.append_assoc]
      rfl
    · intro other member
      rw [Bool.not_eq_true', beq_eq_false_iff_ne]
      exact (hlater other (List.mem_reverse.mp member)).symm

/-- A name finds nothing when no registered function has it. -/
theorem get?_ofList_eq_none {known : List Callable} {name : String} :
    (ofList known).get? name = none ↔
      ∀ callable ∈ known, lowerName callable ≠ Text.lowercase name := by
  rw [get?_ofList, List.find?_eq_none]
  refine forall_congr' fun callable => ?_
  rw [List.mem_reverse, beq_iff_eq]
  exact imp_congr_right fun _ => not_congr eq_comm

/-- No two built-in functions share a name, so each is found under its own. -/
theorem get?_builtins_eq_some {name : String} {callable : Callable} :
    Builtin.registry.get? name = some callable ↔
      callable ∈ Builtin.callables ∧ lowerName callable = Text.lowercase name := by
  constructor
  · exact Builtin.get?_eq_some
  · rintro ⟨member, hname⟩
    cases hget : Builtin.registry.get? name with
    | none => exact absurd hname (Builtin.get?_eq_none hget callable member)
    | some other =>
        obtain ⟨hother, hsame⟩ := Builtin.get?_eq_some hget
        exact congrArg some (List.inj_on_of_nodup_map Builtin.nodup_lowercase_callables hother
          member (hsame.trans hname.symm))

/-- A registry answers for the latest function of each name. It has as many functions as there
are different names in lower case. A call under a name that nobody registered fails, a call
with a number of arguments that the function does not take fails without running it, and any
other call is the function's own answer; both errors give the name as the caller spelled it.
Whatever is registered, the built-in functions themselves stay what they are. -/
theorem registered_latest {registry : Registry} {known : List Callable}
    (h : Registered registry known) :
    (∀ name callable, registry.get? name = some callable ↔ Latest known name callable) ∧
    (∀ name, registry.get? name = none ↔
      ∀ callable ∈ known, lowerName callable ≠ Text.lowercase name) ∧
    (registry.size = (known.map lowerName).toFinset.card ∧
      (registry.isEmpty = true ↔ registry.size = 0)) ∧
    (∀ name callable, Builtin.registry.get? name = some callable ↔
      callable ∈ Builtin.callables ∧ lowerName callable = Text.lowercase name) ∧
    ∀ name args,
      (registry.get? name = none → registry.call name args = throw (.unknownFunction name)) ∧
      ∀ callable, registry.get? name = some callable →
        (callable.arity.accepts args.length = false →
          registry.call name args = throw (.arityMismatch name callable.arity args.length)) ∧
        (callable.arity.accepts args.length = true →
          registry.call name args = callable.body args) := by
  have hlist := h.eq_ofList
  refine ⟨fun name callable => ?_, fun name => ?_, ⟨?_, ?_⟩, fun _ _ => get?_builtins_eq_some,
    fun name args => ⟨call_of_none, fun callable hget => ?_⟩⟩
  · rw [hlist, get?_ofList_eq_some]
  · rw [hlist, get?_ofList_eq_none]
  · rw [hlist, size_ofList]
  · rw [isEmpty, size, List.isEmpty_iff, List.length_eq_zero_iff]
  · exact ⟨call_of_refused hget, call_of_accepted hget⟩

/-- A function that takes the place of the built-in `contains`. -/
def everything : Callable := ⟨"CONTAINS", .exactly 1, fun _ => return .ofBool true⟩

theorem registered_latest_everything :
    Registered (Builtin.registry.register everything) (Builtin.callables ++ [everything]) ∧
    (Builtin.registry.register everything).size = 7 ∧
    (Builtin.registry.register everything).get? "Contains" = some everything ∧
    ∀ arg : TypedValue,
      (Builtin.registry.register everything).call "Contains" [arg] = pure (.ofBool true) ∧
      (Builtin.registry.register everything).call "Contains" [arg, arg] =
        throw (.arityMismatch "Contains" (.exactly 1) 2) := by
  have hregistered := Registered.register everything Registered.builtins
  obtain ⟨hget, -, ⟨hsize, -⟩, -, hcall⟩ := registered_latest hregistered
  have hnames : (Builtin.callables ++ [everything]).map lowerName =
      Builtin.lowerNames ++ ["contains"] := by
    decide +kernel
  have hlatest : Latest (Builtin.callables ++ [everything]) "Contains" everything :=
    ⟨Builtin.callables, [], rfl, by decide +kernel, fun _ member => absurd member List.not_mem_nil⟩
  have hfound := (hget "Contains" everything).mpr hlatest
  refine ⟨hregistered, ?_, hfound, fun arg => ⟨?_, ?_⟩⟩
  · rw [hsize, hnames]
    decide
  · exact ((hcall "Contains" [arg]).2 everything hfound).2 rfl
  · exact ((hcall "Contains" [arg, arg]).2 everything hfound).1 rfl

end Registry

end WorkflowExpr
