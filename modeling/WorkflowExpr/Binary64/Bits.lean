import WorkflowExpr.Binary64.Basic

/-!
The interchange form of a floating-point number: one sign bit, eleven exponent bits and
fifty-two fraction bits, as a natural number below `2 ^ 64`.
-/

namespace WorkflowExpr

/-- The sixty-three bits below the sign. Moving to the next exponent field adds one to the
spare bits, so both subnormal and normal numbers have the same form. -/
def Magnitude.bits (m : Magnitude) : Nat :=
  let spare := spareBits m.units
  spare <<< 52 + m.units >>> spare

namespace Binary64

/-- The exponent field of the infinities and of not-a-number. -/
def specialExponent : Nat := 2047

/-- The bits of a number. Not-a-number is written as the positive quiet one. -/
def toBits : Binary64 → Nat
  | .nan => specialExponent <<< 52 + 1 <<< 51
  | .infinite negative => negative.toNat <<< 63 + specialExponent <<< 52
  | .finite negative m => negative.toNat <<< 63 + m.bits

def ofBits (bits : Nat) : Binary64 :=
  let negative := bits >>> 63 % 2 == 1
  let exponent := bits >>> 52 % 1 <<< 11
  let fraction := bits % 1 <<< 52
  if exponent = specialExponent then
    if fraction = 0 then .infinite negative else .nan
  else if exponent = 0 then ofUnits negative fraction 1
  else ofUnits negative ((1 <<< 52 + fraction) <<< (exponent - 1)) 1

end Binary64

end WorkflowExpr
