import WorkflowExpr.Binary64.Basic

/-!
JSON documents as trees. Whole numbers are kept apart from other numbers, because the two are
written differently, and an object keeps its members as they were written.
-/

namespace WorkflowExpr

inductive Json where
  | null
  | bool (value : Bool)
  | int (value : Int)
  | float (value : Binary64)
  | string (value : String)
  | array (items : List Json)
  | object (members : List (String × Json))
deriving Inhabited

end WorkflowExpr
