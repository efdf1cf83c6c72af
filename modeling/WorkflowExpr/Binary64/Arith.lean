import WorkflowExpr.Binary64.Basic

/-!
The arithmetic that number reading needs: negation, addition, multiplication and division.
Each operation on finite numbers is its exact result rounded once.
-/

namespace WorkflowExpr.Binary64

def neg : Binary64 → Binary64
  | .nan => .nan
  | .infinite negative => .infinite (!negative)
  | .finite negative m => .finite (!negative) m

def signedUnits (negative : Bool) (m : Magnitude) : Int :=
  if negative then -m.units else m.units

/-- The sum. Opposite infinities have none, and an exact zero is negative only when both
operands are. -/
def add : Binary64 → Binary64 → Binary64
  | .nan, _ | _, .nan => .nan
  | .infinite s, .infinite t => if s = t then .infinite s else .nan
  | .infinite s, .finite _ _ => .infinite s
  | .finite _ _, .infinite t => .infinite t
  | .finite s m, .finite t n =>
      let sum := signedUnits s m + signedUnits t n
      if sum = 0 then .finite (s && t) .zero else ofUnits (sum < 0) sum.natAbs 1

/-- The product. An infinity times zero has none. -/
def mul : Binary64 → Binary64 → Binary64
  | .nan, _ | _, .nan => .nan
  | .infinite s, .infinite t => .infinite (s != t)
  | .infinite s, .finite t n => if n.units = 0 then .nan else .infinite (s != t)
  | .finite s m, .infinite t => if m.units = 0 then .nan else .infinite (s != t)
  | .finite s m, .finite t n => ofUnits (s != t) (m.units * n.units) Magnitude.unitsPerOne

/-- The quotient. Zero by zero and infinity by infinity have none, and any other number
divided by zero is infinite. -/
def div : Binary64 → Binary64 → Binary64
  | .nan, _ | _, .nan => .nan
  | .infinite _, .infinite _ => .nan
  | .infinite s, .finite t _ => .infinite (s != t)
  | .finite s _, .infinite t => .finite (s != t) .zero
  | .finite s m, .finite t n =>
      if n.units = 0 then
        if m.units = 0 then .nan else .infinite (s != t)
      else ofUnits (s != t) (m.units * Magnitude.unitsPerOne) n.units

instance : Neg Binary64 := ⟨neg⟩
instance : Add Binary64 := ⟨add⟩
instance : Mul Binary64 := ⟨mul⟩
instance : Div Binary64 := ⟨div⟩

end WorkflowExpr.Binary64
