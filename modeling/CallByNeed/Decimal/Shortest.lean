/-!
# The shortest decimal of a double

A finite double stands for an interval of reals: those that round to it. Among the decimals in that
interval, this module picks one with the fewest digits and, of those, the nearest to the double. The
search is exact: every comparison is between natural numbers. When two candidates are equally near,
the caller's `Tie` decides.
-/

namespace CallByNeed.Decimal

/-- Which of two equally near decimals is taken. -/
inductive Tie where
  /-- The one whose last digit is even. -/
  | toEven
  /-- The larger one. -/
  | up
deriving DecidableEq

/-- The magnitude of a finite double: `mantissa * 2 ^ exponent`. -/
structure Binary where
  mantissa : Nat
  exponent : Int
  /-- The double below is half as far away as the double above. -/
  narrowBelow : Bool
deriving DecidableEq

/-- The magnitude held in the bits of a finite double; the sign bit is not looked at. -/
def Binary.ofBits (bits : UInt64) : Binary :=
  let biased := ((bits >>> 52) &&& 0x7FF).toNat
  let fraction := (bits &&& 0xFFFFFFFFFFFFF).toNat
  if biased = 0 then ⟨fraction, -1074, false⟩
  else ⟨0x10000000000000 + fraction, (biased : Int) - 1075, fraction == 0 && biased > 1⟩

/-- The decimal `digits * 10 ^ exponent`. -/
structure Dec where
  digits : Nat
  exponent : Int
deriving DecidableEq

/-- Drops trailing zeros, at most `fuel` of them; zero itself is left alone. -/
def Dec.trim : Nat → Dec → Dec
  | 0, d => d
  | fuel + 1, d =>
    if d.digits ≠ 0 ∧ d.digits % 10 = 0 then Dec.trim fuel ⟨d.digits / 10, d.exponent + 1⟩ else d

/-- A double and a decimal grid `10 ^ step`, brought to one common unit: the double, the two ends of
the interval that rounds to it, and the distance between two points of the grid. -/
structure Scaled where
  value : Nat
  low : Nat
  high : Nat
  unit : Nat

/-- Quarters of the double's last place are multiplied by what makes them and the grid whole. -/
def Binary.scaled (x : Binary) (step : Int) : Scaled :=
  let up := Nat.pow 2 (x.exponent - 2).toNat * Nat.pow 10 (-step).toNat
  { value := 4 * x.mantissa * up
    low := (if x.narrowBelow then 4 * x.mantissa - 1 else 4 * x.mantissa - 2) * up
    high := (4 * x.mantissa + 2) * up
    unit := Nat.pow 10 step.toNat * Nat.pow 2 (2 - x.exponent).toNat }

/-- The point `n` of the grid rounds to the double; the ends belong to the interval of a double with
an even mantissa. -/
def Scaled.holds (s : Scaled) (even : Bool) (n : Nat) : Bool :=
  let point := n * s.unit
  if even then s.low ≤ point && point ≤ s.high else s.low < point && point < s.high

/-- The double's neighbour on the grid `10 ^ step`, if one of the two rounds to it: the nearer one,
or the one that the tie rule names. -/
def Binary.onGrid? (x : Binary) (tie : Tie) (step : Int) : Option Nat :=
  let s := x.scaled step
  let even := x.mantissa % 2 == 0
  let below := s.value / s.unit
  match s.holds even below, s.holds even (below + 1) with
  | false, false => none
  | true, false => some below
  | false, true => some (below + 1)
  | true, true =>
    match compare (2 * (s.value % s.unit)) s.unit with
    | .lt => some below
    | .gt => some (below + 1)
    | .eq => if tie = .toEven ∧ below % 2 = 0 then some below else some (below + 1)

/-- The exponent `k` of the least power of ten above a positive magnitude, `x < 10 ^ k`: an estimate
from the number of bits, put right by at most one. -/
def Binary.decimalOrder (x : Binary) : Int :=
  let bits := (x.mantissa.log2 : Int) + 1 + x.exponent
  let estimate := (bits * 30103).fdiv 100000
  let s := x.scaled estimate
  if s.value < s.unit then estimate else estimate + 1

/-- Tries grids from the coarsest to the finest; `fuel` counts the digits left to try. -/
def Binary.search (x : Binary) (tie : Tie) : Nat → Int → Dec
  | 0, step => ⟨(x.scaled step).value / (x.scaled step).unit, step⟩
  | fuel + 1, step =>
    match x.onGrid? tie step with
    | some n => ⟨n, step⟩
    | none => x.search tie fuel (step - 1)

/-- A shortest decimal that rounds to the double and, of those, the nearest. Seventeen digits are
always enough. -/
def Binary.shortest (x : Binary) (tie : Tie) : Dec :=
  if x.mantissa = 0 then ⟨0, 0⟩
  else (x.search tie 17 (x.decimalOrder - 1)).trim 400

end CallByNeed.Decimal
