import CallByNeed.Decimal.Shortest

/-!
# Writing a double

`display` is the text form of the language: the shortest digits written positionally whatever the
size, with no trailing `.0`. The pieces it is made of serve other layouts too.
-/

namespace CallByNeed.Decimal

/-- The decimal digits of a number, most significant first. -/
def digitsOf (n : Nat) : List Char :=
  Nat.toDigits 10 n

/-- `n` zeros. -/
def zeros (n : Nat) : List Char :=
  List.replicate n '0'

/-- The digits of a decimal before and after the point, positionally. -/
def Dec.positional (d : Dec) : List Char × List Char :=
  let digits := digitsOf d.digits
  if 0 ≤ d.exponent then (digits ++ zeros d.exponent.toNat, [])
  else
    let places := (-d.exponent).toNat
    if places < digits.length then
      (digits.take (digits.length - places), digits.drop (digits.length - places))
    else (['0'], zeros (places - digits.length) ++ digits)

/-- The exponent of the leading digit: `d` is `c.ccc * 10 ^ e`. -/
def Dec.scientificExponent (d : Dec) : Int :=
  d.exponent + (digitsOf d.digits).length - 1

/-- The sign bit is set. -/
def isNegative (x : Float) : Bool :=
  x.toBits >>> 63 == 1

/-- The magnitude of a finite double as its shortest decimal. -/
def shortest (x : Float) (tie : Tie) : Dec :=
  (Binary.ofBits x.toBits).shortest tie

/-- Puts the sign of `x` in front. -/
def signed (x : Float) (magnitude : List Char) : String :=
  String.ofList (if isNegative x then '-' :: magnitude else magnitude)

/-- The text form of a double: positional, the fewest digits, equally near candidates resolved
upwards. -/
def display (x : Float) : String :=
  if x.isNaN then "NaN"
  else if x.isInf then signed x "inf".toList
  else
    match (shortest x .up).positional with
    | (whole, []) => signed x whole
    | (whole, fraction) => signed x (whole ++ '.' :: fraction)

/-- The value of a list of decimal digits. -/
def valueOf (digits : List Char) : Nat :=
  digits.foldl (fun n c => 10 * n + (c.toNat - '0'.toNat)) 0

end CallByNeed.Decimal
