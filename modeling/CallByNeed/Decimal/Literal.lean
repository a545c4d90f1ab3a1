import CallByNeed.Decimal.Layout

/-!
# Reading a double from text

The spellings of a double in text: an optional sign, then `inf`, `infinity` or `nan` in any case, or
decimal digits with an optional point and an optional exponent. The value is the double nearest to
the number written.
-/

namespace CallByNeed.Decimal

/-- The longest run of decimal digits in front, and what follows it. -/
def spanDigits (text : List Char) : List Char × List Char :=
  text.span Char.isDigit

/-- The exponent behind an `e`: an optional sign and at least one digit, to the end of the text. -/
def exponentOf? (text : List Char) : Option Int :=
  let (negative, digits) :=
    match text with
    | '-' :: rest => (true, rest)
    | '+' :: rest => (false, rest)
    | rest => (false, rest)
  if digits.isEmpty || !digits.all Char.isDigit then none
  else some (if negative then -(valueOf digits : Int) else valueOf digits)

/-- The double nearest to `digits * 10 ^ exponent`. Beyond the range of doubles the exponent is cut,
so that a huge one costs nothing. -/
def nearest (digits : Nat) (exponent : Int) : Float :=
  if digits = 0 then 0
  else
    let size : Int := (digitsOf digits).length
    if exponent + size > 400 then 1.0 / 0.0
    else if exponent + size < -400 then 0
    else Float.ofScientific digits (exponent < 0) exponent.natAbs

/-- An unsigned number: digits with an optional point, at least one digit in all, and an optional
exponent. -/
def magnitude? (text : List Char) : Option Float :=
  let (whole, rest) := spanDigits text
  let (fraction, rest) :=
    match rest with
    | '.' :: rest => spanDigits rest
    | rest => ([], rest)
  if whole.isEmpty && fraction.isEmpty then none
  else
    let digits := valueOf (whole ++ fraction)
    let scale := -(fraction.length : Int)
    match rest with
    | [] => some (nearest digits scale)
    | c :: rest =>
      if c = 'e' || c = 'E' then (exponentOf? rest).map fun e => nearest digits (scale + e)
      else none

/-- The double that a text spells, if it spells one. -/
def read? (text : String) : Option Float :=
  let (negative, rest) :=
    match text.toList with
    | '-' :: rest => (true, rest)
    | '+' :: rest => (false, rest)
    | rest => (false, rest)
  let word := String.ofList (rest.map Char.toLower)
  let magnitude :=
    if word = "inf" || word = "infinity" then some (1.0 / 0.0)
    else if word = "nan" then some (0.0 / 0.0)
    else magnitude? rest
  magnitude.map fun x => if negative then -x else x

end CallByNeed.Decimal
