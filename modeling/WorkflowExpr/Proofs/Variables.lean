import WorkflowExpr.Proofs.Frame

/-!
The names in an expression: those that it uses without a receiver, which are all that
evaluation asks of a context, and those of the functions that it calls.
-/

namespace WorkflowExpr

namespace Expr

mutual

/-- The names that stand for themselves somewhere in an expression. -/
def variableNames : Expr → List String
  | .var _ name => [name]
  | .property _ receiver _ => receiver.variableNames
  | .index _ operand position => operand.variableNames ++ position.variableNames
  | .not _ operand => operand.variableNames
  | .compare _ _ left right => left.variableNames ++ right.variableNames
  | .logical _ _ left right => left.variableNames ++ right.variableNames
  | .call _ _ args => variableNamesOfArgs args
  | _ => []

def variableNamesOfArgs : List Expr → List String
  | [] => []
  | arg :: args => arg.variableNames ++ variableNamesOfArgs args

end

mutual

def calledNames : Expr → List String
  | .property _ receiver _ => receiver.calledNames
  | .index _ operand position => operand.calledNames ++ position.calledNames
  | .not _ operand => operand.calledNames
  | .compare _ _ left right => left.calledNames ++ right.calledNames
  | .logical _ _ left right => left.calledNames ++ right.calledNames
  | .call _ callee args => callee.name :: calledNamesOfArgs args
  | _ => []

def calledNamesOfArgs : List Expr → List String
  | [] => []
  | arg :: args => arg.calledNames ++ calledNamesOfArgs args

end

theorem mem_variableNamesOfArgs {name : String} {args : List Expr} :
    name ∈ variableNamesOfArgs args ↔ ∃ arg ∈ args, name ∈ arg.variableNames := by
  induction args with
  | nil => simp [variableNamesOfArgs]
  | cons arg args ih => simp [variableNamesOfArgs, ih]

theorem mem_calledNamesOfArgs {name : String} {args : List Expr} :
    name ∈ calledNamesOfArgs args ↔ ∃ arg ∈ args, name ∈ arg.calledNames := by
  induction args with
  | nil => simp [calledNamesOfArgs]
  | cons arg args ih => simp [calledNamesOfArgs, ih]

end Expr

namespace Frame

open WorkflowExpr.Expr

def variableNames : Frame → List String
  | .property _ _ | .not _ => []
  | .indexOperand _ e | .indexPosition _ e | .compareLeft _ _ e | .compareRight _ _ e
  | .logicalLeft _ _ e | .logicalRight _ _ e => e.variableNames
  | .argument _ _ before after => variableNamesOfArgs before ++ variableNamesOfArgs after

end Frame

end WorkflowExpr
