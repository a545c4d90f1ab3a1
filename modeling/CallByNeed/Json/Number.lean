import CallByNeed.Decimal.Layout
import CallByNeed.Json.Basic

/-!
# What a JSON number means

As an integer, a number is what its digits say, provided that it has neither a fraction nor an
exponent. As a double it is read with one rounding step per operation, not with one in all: the
leading digits that fit 64 bits are turned into a double, which is then multiplied or divided by a
power of ten. A number too large for a double is refused; one too small is zero. A negative zero
counts as a double only.

In the other direction a double is written with its shortest digits, equally near candidates
resolved to even.
-/

namespace CallByNeed.Json.Number

open CallByNeed.Decimal

/-! ## Integers -/

/-- The integer that the number spells, if it is one. -/
def toInt? (n : Number) : Option Int :=
  if n.fraction.isEmpty && n.exponent.isNone then
    let value := valueOf n.whole
    if n.negative then (if value = 0 then none else some (-(value : Int))) else some value
  else none

/-- The number that spells an integer. -/
def ofInt (i : Int) : Number :=
  ⟨decide (i < 0), digitsOf i.natAbs, [], none⟩

/-! ## Doubles -/

/-- The bound of the significand: what 64 bits can hold. -/
def significandBound : Nat := UInt64.size

/-- Appends digits to a significand as long as it fits, and returns the digits that are left. -/
def accumulate : Nat → List Char → Nat × List Char
  | s, [] => (s, [])
  | s, c :: rest =>
    let next := 10 * s + (c.toNat - '0'.toNat)
    if next < significandBound then accumulate next rest else (s, c :: rest)

/-- The significand and the power of ten of a number. Whole digits that no longer fit only count;
digits of the fraction that no longer fit are dropped. -/
def scaled (n : Number) : Nat × Int :=
  let (s, leftWhole) := accumulate 0 n.whole
  let (s, leftFraction) := accumulate s n.fraction
  let written : Int :=
    match n.exponent with
    | none => 0
    | some (negative, digits) => if negative then -(valueOf digits : Int) else valueOf digits
  (s, (leftWhole.length : Int) - (n.fraction.length - leftFraction.length : Nat) + written)

/-- The double nearest to a power of ten that a double can hold. -/
def powerOfTen (n : Nat) : Float :=
  Float.ofScientific 1 false n

/-- The largest power of ten that a double can hold. -/
def largestPower : Nat := 308

/-- `significand * 10 ^ exponent` by one multiplication, or by one division or two; `none` when the
result leaves the range of doubles. A significand of 64 bits divided by `1e308` twice is zero. -/
def scale? (significand : Nat) (exponent : Int) : Option Float :=
  let f := Float.ofNat significand
  if 0 ≤ exponent then
    if exponent.toNat ≤ largestPower then
      let x := f * powerOfTen exponent.toNat
      if x.isInf then none else some x
    else if significand = 0 then some f else none
  else
    let down := exponent.natAbs
    if down ≤ largestPower then some (f / powerOfTen down)
    else if down ≤ 2 * largestPower then
      some (f / powerOfTen largestPower / powerOfTen (down - largestPower))
    else some 0

/-- The double that the number stands for, if it has one. -/
def toFloat? (n : Number) : Option Float :=
  let (significand, exponent) := n.scaled
  (scale? significand exponent).map fun x => if n.negative then -x else x

/-- The exponents of ten that are written positionally. -/
structure Band where
  least : Int
  bound : Int

/-- `0.00001` and `1000000000000000.0` are written in full, `1e-6` and `1e+16` are not. -/
def positional : Band := ⟨-5, 16⟩

/-- The number that spells a finite double. Inside the band a fraction is always written; outside it
the exponent always has a sign. -/
def ofFloat (x : Float) : Number :=
  let d := shortest x .toEven
  let e := d.scientificExponent
  if d.digits = 0 ∨ (positional.least ≤ e ∧ e < positional.bound) then
    match d.positional with
    | (whole, []) => ⟨isNegative x, whole, ['0'], none⟩
    | (whole, fraction) => ⟨isNegative x, whole, fraction, none⟩
  else
    let digits := digitsOf d.digits
    ⟨isNegative x, digits.take 1, digits.drop 1, some (decide (e < 0), digitsOf e.natAbs)⟩

end CallByNeed.Json.Number
