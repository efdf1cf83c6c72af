import WorkflowExpr.Proofs.Uniform

/-!
Formulas of logical operators over arbitrary expressions. Evaluating one is a scan of its
leaves from left to right, in which the truth of each leaf says which leaf is asked next and
the first leaf that fails ends the scan. When the leaves do the same each time they are asked,
the outcome depends only on a verdict that obeys the laws of short-circuit logic, so that the
usual rewritings of formulas do not change it.
-/

namespace WorkflowExpr

open Eval Evaluation

theorem TypedValue.truthy_ofBool (b : Bool) : (ofBool b).truthy = b := by
  cases b <;> rfl

namespace Evaluation

/-- Whether a computation yields a true result from a state, or the error that it ends in. -/
def truth (x : Evaluation TypedValue) (next : Identity) : Except EvalError Bool :=
  (x next).map fun out => out.1.truthy

variable {x : Evaluation TypedValue} {f : TypedValue → Evaluation TypedValue}
  {next mid : Identity}

theorem truth_of_ok {r : TypedValue} (h : x next = .ok (r, mid)) :
    x.truth next = .ok r.truthy := by
  rw [truth, h]
  rfl

theorem truth_of_error {error : EvalError} (h : x next = .error error) :
    x.truth next = .error error := by
  rw [truth, h]
  rfl

theorem truth_ofBool (b : Bool) (next : Identity) :
    (pure (.ofBool b) : Evaluation TypedValue).truth next = .ok b :=
  congrArg Except.ok (TypedValue.truthy_ofBool b)

theorem truth_bind_of_ok {r : TypedValue} (h : x next = .ok (r, mid)) :
    (x >>= f).truth next = (f r).truth mid := by
  rw [truth, bind_of_ok h, truth]

theorem truth_bind_of_error {error : EvalError} (h : x next = .error error) :
    (x >>= f).truth next = .error error :=
  truth_of_error (bind_of_error h)

end Evaluation

def LogicalOp.dual : LogicalOp → LogicalOp
  | .and => .or
  | .or => .and

/-- The answer of a logical operator that its left side alone can decide. -/
def LogicalOp.decisive : LogicalOp → Bool
  | .and => false
  | .or => true

/-- The left side decides the answer when its truth is the decisive one. -/
theorem Eval.decidedBy?_eq_if (op : LogicalOp) (l : TypedValue) :
    decidedBy? op l = if l.truthy = op.decisive then some op.decisive else none := by
  cases op <;> cases h : l.falsy <;> simp [decidedBy?, LogicalOp.decisive, TypedValue.truthy, h]

/-- An expression as a tree of logical operators over leaves of any kind. -/
inductive Formula where
  | leaf (e : Expr)
  | not (span : Span) (operand : Formula)
  | logical (span : Span) (op : LogicalOp) (left right : Formula)

/-- A plan of questions. The truth of a leaf says how the scan goes on. -/
inductive Scan where
  | answer (b : Bool)
  | ask (leaf : Expr) (whenTrue whenFalse : Scan)

namespace Scan

def run (registry : Registry) (ctx : Context) : Scan → Evaluation Bool
  | .answer b => return b
  | .ask leaf whenTrue whenFalse => do
      let r ← leaf.eval registry ctx
      if r.truthy then whenTrue.run registry ctx else whenFalse.run registry ctx

/-- Whether a scan asks leaves of a list only, each at most once and in the order of the list. -/
inductive Follows : List Expr → Scan → Prop where
  | answer (leaves : List Expr) (b : Bool) : Follows leaves (.answer b)
  | ask {leaves : List Expr} {whenTrue whenFalse : Scan} (leaf : Expr)
      (htrue : Follows leaves whenTrue) (hfalse : Follows leaves whenFalse) :
      Follows (leaf :: leaves) (.ask leaf whenTrue whenFalse)
  | skip {leaves : List Expr} {scan : Scan} (leaf : Expr) (h : Follows leaves scan) :
      Follows (leaf :: leaves) scan

theorem Follows.append_left {leaves : List Expr} {scan : Scan} (h : Follows leaves scan)
    (before : List Expr) : Follows (before ++ leaves) scan := by
  induction before with
  | nil => exact h
  | cons leaf before ih => exact .skip leaf ih

end Scan

namespace Expr

variable {registry : Registry} {ctx : Context} {held : Set Identity} {e : Expr}
  {next next' last : Identity} {r : TypedValue}

theorem below_heldBy (h : ∀ i ∈ held ∪ ctx.held, i < next) :
    ∀ i ∈ held ∪ ctx.heldBy e.variableNames, i < next :=
  fun i hi => h i (Set.union_subset_union_right held (ctx.heldBy_subset e.variableNames) hi)

/-- The truth of an expression does not depend on the state it is evaluated from. -/
theorem truth_eq (huniform : registry.Uniform held) (hnext : ∀ i ∈ held ∪ ctx.held, i < next)
    (hnext' : ∀ i ∈ held ∪ ctx.held, i < next') :
    (e.eval registry ctx).truth next = (e.eval registry ctx).truth next' := by
  have hsame := eval_shifted (huniform.on _) (below_heldBy (e := e) hnext) (below_heldBy hnext')
  unfold truth
  generalize e.eval registry ctx next = out at hsame ⊢
  generalize e.eval registry ctx next' = out' at hsame ⊢
  cases hsame with
  | error error => rfl
  | ok hrenaming hrelated =>
      have hcorresponds := (TypedValue.renamed_relates _ _).corresponds hrelated
      exact congrArg (fun b => Except.ok !b) hcorresponds.falsy.symm

theorem unused_of_uniform (huniform : registry.Uniform held)
    (hnext : ∀ i ∈ held ∪ ctx.held, i < next) (h : e.eval registry ctx next = .ok (r, last)) :
    ∀ i ∈ held ∪ ctx.held, i < last :=
  fun i hi => Nat.lt_of_lt_of_le (hnext i hi)
    (eval_advances_of_uniform (huniform.on _) (below_heldBy hnext) h)

end Expr

namespace Formula

def toExpr : Formula → Expr
  | .leaf e => e
  | .not span operand => .not span operand.toExpr
  | .logical span op left right => .logical span op left.toExpr right.toExpr

def isLeaf : Formula → Bool
  | .leaf _ => true
  | _ => false

def leaves : Formula → List Expr
  | .leaf e => [e]
  | .not _ operand => operand.leaves
  | .logical _ _ left right => left.leaves ++ right.leaves

/-- The scan of a formula that goes on in one way when it is true and in another when it is
false. -/
def scan : Formula → Scan → Scan → Scan
  | .leaf e, yes, no => .ask e yes no
  | .not _ operand, yes, no => operand.scan no yes
  | .logical _ .and left right, yes, no => left.scan (right.scan yes no) no
  | .logical _ .or left right, yes, no => left.scan yes (right.scan yes no)

def toScan (f : Formula) : Scan := f.scan (.answer true) (.answer false)

/-- The truth of a formula, or the error that ends its scan, when the leaves' are known. -/
def verdict (ask : Expr → Except EvalError Bool) : Formula → Except EvalError Bool
  | .leaf e => ask e
  | .not _ operand => do return !(← operand.verdict ask)
  | .logical _ op left right => do
      let b ← left.verdict ask
      if b = op.decisive then return b else right.verdict ask

/-- Rewriting of formulas: other brackets in a chain, a negation drawn into an operator, two
negations dropped, a part multiplied out or absorbed, forwards and backwards, in any place and
one after the other. The spans of new nodes are free. -/
inductive Rewrites : Formula → Formula → Prop where
  | rebracket (s t s' t' : Span) (op : LogicalOp) (a b c : Formula) :
      Rewrites (.logical s op a (.logical t op b c)) (.logical s' op (.logical t' op a b) c)
  | negate (s t s' t' u' : Span) (op : LogicalOp) (a b : Formula) :
      Rewrites (.not s (.logical t op a b)) (.logical s' op.dual (.not t' a) (.not u' b))
  | doubleNot (s t : Span) (a : Formula) : Rewrites (.not s (.not t a)) a
  | distribute (s t s' t' u' : Span) (op : LogicalOp) (a b c : Formula) :
      Rewrites (.logical s op a (.logical t op.dual b c))
        (.logical s' op.dual (.logical t' op a b) (.logical u' op a c))
  | absorb (s t s' t' : Span) (op : LogicalOp) (a b : Formula) :
      Rewrites (.logical s op a (.logical t op.dual a b)) (.not s' (.not t' a))
  | refl (f : Formula) : Rewrites f f
  | symm {f g : Formula} (h : Rewrites f g) : Rewrites g f
  | trans {f g h : Formula} (hfg : Rewrites f g) (hgh : Rewrites g h) : Rewrites f h
  | not {f g : Formula} (s : Span) (h : Rewrites f g) : Rewrites (.not s f) (.not s g)
  | logical {f g f' g' : Formula} (s : Span) (op : LogicalOp) (hleft : Rewrites f g)
      (hright : Rewrites f' g') : Rewrites (.logical s op f f') (.logical s op g g')

variable {registry : Registry} {ctx : Context} {held : Set Identity} {f g : Formula}
  {ask : Expr → Except EvalError Bool}

/-- A formula is scanned from left to right, before whatever its answer leads to. -/
theorem follows_scan {yes no : Scan} {after : List Expr} (hyes : yes.Follows after)
    (hno : no.Follows after) : (f.scan yes no).Follows (f.leaves ++ after) := by
  induction f generalizing yes no after with
  | leaf e => exact .ask e hyes hno
  | not span operand ih => exact ih hno hyes
  | logical span op left right ihleft ihright =>
      rw [leaves, List.append_assoc]
      have hright := ihright hyes hno
      cases op with
      | and => exact ihleft hright (hno.append_left right.leaves)
      | or => exact ihleft (hyes.append_left right.leaves) hright

/-- Evaluating a formula and going on by its truth is running its scan. -/
theorem run_scan (f : Formula) (yes no : Scan) :
    (f.scan yes no).run registry ctx = (f.toExpr.eval registry ctx >>= fun r =>
      if r.truthy then yes.run registry ctx else no.run registry ctx) := by
  induction f generalizing yes no with
  | leaf e => rfl
  | not span operand ih =>
      rw [scan, ih, toExpr, Expr.eval, bind_assoc]
      congr 1
      funext r
      rw [pure_bind, TypedValue.truthy_ofBool, TypedValue.truthy]
      cases r.falsy <;> rfl
  | logical span op left right ihleft ihright =>
      have hright : ∀ yes no : Scan, (right.toExpr.eval registry ctx >>= fun r =>
          (pure (.ofBool r.truthy) : Evaluation TypedValue)) >>= (fun r =>
            if r.truthy then yes.run registry ctx else no.run registry ctx) =
          (right.scan yes no).run registry ctx := by
        intro yes no
        rw [ihright, bind_assoc]
        congr 1
        funext r
        rw [pure_bind, TypedValue.truthy_ofBool]
      cases op with
      | and =>
          rw [scan, ihleft, toExpr, Expr.eval, bind_assoc]
          congr 1
          funext l
          rw [TypedValue.truthy, decidedBy?]
          cases l.falsy with
          | true => rfl
          | false => exact (hright yes no).symm
      | or =>
          rw [scan, ihleft, toExpr, Expr.eval, bind_assoc]
          congr 1
          funext l
          rw [decidedBy?]
          cases l.truthy with
          | true => rfl
          | false => exact (hright yes no).symm

/-- An operator yields a truth value. -/
theorem eval_toExpr_bool (h : f.isLeaf = false) :
    (f.toExpr.eval registry ctx >>= fun r => return .ofBool r.truthy) =
      f.toExpr.eval registry ctx := by
  cases f with
  | leaf e => cases h
  | not span operand => simp only [toExpr, Expr.eval, bind_assoc, pure_bind,
      TypedValue.truthy_ofBool]
  | logical span op left right =>
      rw [toExpr, Expr.eval, bind_assoc]
      congr 1
      funext l
      cases decidedBy? op l with
      | some b => simp only [pure_bind, TypedValue.truthy_ofBool]
      | none => simp only [bind_assoc, pure_bind, TypedValue.truthy_ofBool]

/-- The outcome of a formula is that of its scan. -/
theorem eval_toExpr (h : f.isLeaf = false) :
    f.toExpr.eval registry ctx = (f.toScan.run registry ctx >>= fun b => return .ofBool b) := by
  rw [← eval_toExpr_bool h, toScan, run_scan, bind_assoc]
  congr 1
  funext r
  cases r.truthy <;> rfl

/-- Rewriting does not change the verdict. -/
theorem Rewrites.verdict_eq (h : Rewrites f g) : f.verdict ask = g.verdict ask := by
  induction h with
  | rebracket s t s' t' op a b c =>
      simp only [verdict]
      cases a.verdict ask with
      | error error => rfl
      | ok x =>
          cases op <;> cases x <;> cases b.verdict ask with
          | error error => rfl
          | ok y => cases y <;> rfl
  | negate s t s' t' u' op a b =>
      simp only [verdict]
      cases a.verdict ask with
      | error error => rfl
      | ok x => cases op <;> cases x <;> cases b.verdict ask <;> rfl
  | doubleNot s t a =>
      simp only [verdict]
      cases a.verdict ask with
      | error error => rfl
      | ok x => cases x <;> rfl
  | distribute s t s' t' u' op a b c =>
      simp only [verdict]
      cases a.verdict ask with
      | error error => rfl
      | ok x =>
          cases op <;> cases x <;> cases b.verdict ask with
          | error error => rfl
          | ok y => cases y <;> cases c.verdict ask <;> rfl
  | absorb s t s' t' op a b =>
      simp only [verdict]
      cases a.verdict ask with
      | error error => rfl
      | ok x => cases op <;> cases x <;> rfl
  | refl f => rfl
  | symm _ ih => exact ih.symm
  | trans _ _ ihfg ihgh => exact ihfg.trans ihgh
  | not s _ ih => rw [verdict, verdict, ih]
  | logical s op _ _ ihleft ihright => rw [verdict, verdict, ihleft, ihright]

/-- The right side is asked in the state that the left side leaves. -/
theorem truth_logical (span : Span) (op : LogicalOp) {left right : Expr} {l : TypedValue}
    {next mid : Identity} (h : left.eval registry ctx next = .ok (l, mid)) :
    ((Expr.logical span op left right).eval registry ctx).truth next =
      if l.truthy = op.decisive then .ok l.truthy
      else (right.eval registry ctx).truth mid := by
  rw [Expr.eval, truth_bind_of_ok h, decidedBy?_eq_if]
  by_cases hdecisive : l.truthy = op.decisive
  · rw [if_pos hdecisive, if_pos hdecisive, hdecisive]
    exact truth_ofBool op.decisive mid
  · rw [if_neg hdecisive, if_neg hdecisive]
    cases hright : right.eval registry ctx mid with
    | error error => rw [truth_bind_of_error hright, truth_of_error hright]
    | ok out => rw [truth_bind_of_ok hright, truth_of_ok hright, truth_ofBool]

/-- When no function can tell which identities are in use, a formula has the verdict that its
leaves have from some one state, from whatever state it is evaluated. -/
theorem truth_toExpr {base next : Identity} (huniform : registry.Uniform held)
    (hbase : ∀ i ∈ held ∪ ctx.held, i < base) (hnext : ∀ i ∈ held ∪ ctx.held, i < next) :
    (f.toExpr.eval registry ctx).truth next =
      f.verdict fun e => (e.eval registry ctx).truth base := by
  induction f generalizing next with
  | leaf e => exact Expr.truth_eq huniform hnext hbase
  | not span operand ih =>
      rw [verdict, ← ih hnext, toExpr, Expr.eval]
      cases h : operand.toExpr.eval registry ctx next with
      | error error =>
          rw [truth_bind_of_error h, truth_of_error h]
          rfl
      | ok out =>
          rw [truth_bind_of_ok h, truth_of_ok h, truth_ofBool, TypedValue.truthy]
          cases out.1.falsy <;> rfl
  | logical span op left right ihleft ihright =>
      rw [verdict, ← ihleft hnext, toExpr]
      cases h : left.toExpr.eval registry ctx next with
      | error error =>
          rw [Expr.eval, truth_bind_of_error h, truth_of_error h]
          rfl
      | ok out =>
          obtain ⟨l, mid⟩ := out
          have hmid := Expr.unused_of_uniform huniform hnext h
          rw [truth_logical span op h, truth_of_ok h, ihright hmid]
          rfl

/-- The outcome of a formula is its verdict, as a truth value. -/
theorem outcome_toExpr {next : Identity} (h : f.isLeaf = false) :
    (f.toExpr.eval registry ctx next).map Prod.fst =
      ((f.toExpr.eval registry ctx).truth next).map .ofBool := by
  cases hrun : f.toExpr.eval registry ctx next with
  | error error =>
      rw [truth_of_error hrun]
      rfl
  | ok out =>
      obtain ⟨r, last⟩ := out
      have hbool : (f.toExpr.eval registry ctx >>= fun r => return .ofBool r.truthy) next =
          f.toExpr.eval registry ctx next := congrFun (eval_toExpr_bool h) next
      rw [bind_of_ok hrun, hrun] at hbool
      have hr : .ofBool r.truthy = r := (Prod.mk.inj (Except.ok.inj hbool)).1
      rw [truth_of_ok hrun]
      exact congrArg Except.ok hr.symm

/-- Formulas obey short-circuit logic. Evaluating one that has an operator is a scan that asks
its leaves from left to right and answers with a truth value, and with functions that cannot
tell which identities are in use no rewriting changes the outcome. -/
theorem short_circuit_logic (registry : Registry) (ctx : Context) (f : Formula)
    (hf : f.isLeaf = false) :
    f.toScan.Follows f.leaves ∧
    (∀ next, f.toExpr.eval registry ctx next =
      (f.toScan.run registry ctx >>= fun b => return .ofBool b) next) ∧
    ∀ (g : Formula) (held : Set Identity) (next next' : Identity), f.Rewrites g →
      g.isLeaf = false → registry.Uniform held → (∀ i ∈ held ∪ ctx.held, i < next) →
        (∀ i ∈ held ∪ ctx.held, i < next') →
          (f.toExpr.eval registry ctx next).map Prod.fst =
            (g.toExpr.eval registry ctx next').map Prod.fst := by
  refine ⟨?_, fun next => by rw [eval_toExpr hf], ?_⟩
  · have h := f.follows_scan (.answer [] true) (.answer [] false)
    rwa [List.append_nil] at h
  · intro g held next next' hrewrites hg huniform hnext hnext'
    rw [outcome_toExpr hf, outcome_toExpr hg, truth_toExpr huniform hnext hnext,
      truth_toExpr huniform hnext hnext', hrewrites.verdict_eq]

/-- The formula `'a' && (null || x)`. -/
def guardedName : Formula :=
  .logical .nowhere .and (.leaf (.string .nowhere "a"))
    (.logical .nowhere .or (.leaf (.null .nowhere)) (.leaf (.var .nowhere "x")))

/-- The same formula multiplied out, `('a' && null) || ('a' && x)`. -/
def guardedNameOut : Formula :=
  .logical .nowhere .or
    (.logical .nowhere .and (.leaf (.string .nowhere "a")) (.leaf (.null .nowhere)))
    (.logical .nowhere .and (.leaf (.string .nowhere "a")) (.leaf (.var .nowhere "x")))

/-- Multiplied out or not, the scan comes to the name that is not bound. -/
theorem short_circuit_logic_distribute :
    guardedName.isLeaf = false ∧ guardedNameOut.isLeaf = false ∧
    guardedName.Rewrites guardedNameOut ∧ Builtin.registry.Uniform ∅ ∧
    (∀ i ∈ ∅ ∪ Context.empty.held, i < 0) ∧
    (guardedName.toExpr.eval Builtin.registry .empty 0).map Prod.fst =
      (guardedNameOut.toExpr.eval Builtin.registry .empty 0).map Prod.fst ∧
    guardedNameOut.toExpr.eval Builtin.registry .empty 0 = .error (.unknownVariable "x") := by
  have hrewrites : guardedName.Rewrites guardedNameOut := .distribute _ _ _ _ _ .and _ _ _
  have hbelow : ∀ i ∈ ∅ ∪ Context.empty.held, i < 0 := by
    rintro i (hi | ⟨name, v, hv, -⟩)
    · cases hi
    · cases hv
  have hsame := (short_circuit_logic Builtin.registry .empty guardedName rfl).2.2 guardedNameOut
    ∅ 0 0 hrewrites rfl (Builtin.registry_uniform ∅) hbelow hbelow
  exact ⟨rfl, rfl, hrewrites, Builtin.registry_uniform ∅, hbelow, hsame, rfl⟩

end Formula

end WorkflowExpr
