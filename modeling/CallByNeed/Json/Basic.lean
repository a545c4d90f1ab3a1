/-!
# JSON values

The tree of a JSON text, with its leaves kept as written: a number keeps its digits, so that what it
means can be decided by whoever reads it, and a text may be one that names no characters.
-/

namespace CallByNeed

/-- A number as written: sign, digits before the point, digits after it (none without a point), and
the exponent's sign and digits. -/
structure Json.Number where
  negative : Bool
  whole : List Char
  fraction : List Char
  exponent : Option (Bool × List Char)
deriving DecidableEq

/-- The characters of a JSON text. `none` stands for a text with an escape that names half of a
surrogate pair: it is well formed, but it is not a string of characters. -/
abbrev Json.Text := Option String

/-- A JSON value. The fields of an object keep their order and their repetitions. -/
inductive Json where
  | null
  | bool (b : Bool)
  | number (n : Json.Number)
  | text (t : Json.Text)
  | array (items : List Json)
  | object (fields : List (Json.Text × Json))

namespace Json

/-- A text of characters. -/
def str (s : String) : Json := .text (some s)

/-- An object with named fields. -/
def record (fields : List (String × Json)) : Json :=
  .object (fields.map fun f => (some f.1, f.2))

end Json

end CallByNeed
