import WorkflowExpr.Json.Basic

/-!
Places in the text of an expression, as a start and an end. Both are byte offsets of
thirty-two bits, and nothing forces the end to come after the start.
-/

namespace WorkflowExpr

structure Span where
  start : UInt32
  stop : UInt32
deriving DecidableEq, Inhabited, Repr

namespace Span

/-- The span of what was not read from a text. -/
def nowhere : Span := ⟨0, 0⟩

def point (offset : UInt32) : Span := ⟨offset, offset⟩

def merge (a b : Span) : Span := ⟨min a.start b.start, max a.stop b.stop⟩

/-- The length, none when the end comes before the start. -/
def length (s : Span) : Nat := s.stop.toNat - s.start.toNat

def isEmpty (s : Span) : Bool := s.length == 0

def display (s : Span) : String := toString s.start.toNat ++ ".." ++ toString s.stop.toNat

def toJson (s : Span) : Json :=
  .object [("start", .int s.start.toNat), ("end", .int s.stop.toNat)]

end Span

end WorkflowExpr
