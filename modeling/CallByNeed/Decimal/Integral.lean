import CallByNeed.Decimal.Layout

/-!
# Integral doubles

The integer that a double stands for, if it stands for one, computed from its mantissa and exponent.
-/

namespace CallByNeed.Decimal

/-- The natural number that a magnitude stands for, if it is whole. -/
def Binary.natural? (x : Binary) : Option Nat :=
  if 0 ≤ x.exponent then some (x.mantissa * Nat.pow 2 x.exponent.toNat)
  else
    let unit := Nat.pow 2 (-x.exponent).toNat
    if x.mantissa % unit = 0 then some (x.mantissa / unit) else none

/-- The integer that a double stands for, if it is finite and whole. Negative zero is zero. -/
def integral? (x : Float) : Option Int :=
  if x.isNaN || x.isInf then none
  else (Binary.ofBits x.toBits).natural?.map fun n => if isNegative x then -(n : Int) else n

end CallByNeed.Decimal
