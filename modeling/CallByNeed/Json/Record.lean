import CallByNeed.Json.Number

/-!
# Reading records

A record is written as an object or as an array of its fields in order. An object may hold fields of
other names, which are ignored; a field given twice is refused, and so is a key without characters.
An array may end early, which leaves the remaining fields out, but may not go on.
-/

namespace CallByNeed.Json

/-- The value of a field in an object: `none` if the field is given twice, `some none` if it is not
given. -/
def field? (fields : List (Text × Json)) (name : String) : Option (Option Json) :=
  match fields.filter fun f => f.1 = some name with
  | [] => some none
  | [f] => some (some f.2)
  | _ => none

/-- The values of the named fields of a record, in the order of the names. -/
def record? (names : List String) : Json → Option (List (Option Json))
  | .object fields =>
    if fields.all fun f => f.1.isSome then names.mapM (field? fields) else none
  | .array items =>
    if items.length ≤ names.length then
      some (items.map some ++ List.replicate (names.length - items.length) none)
    else none
  | _ => none

/-- A truth value. -/
def bool? : Json → Option Bool
  | .bool b => some b
  | _ => none

/-- A text of characters. -/
def string? : Json → Option String
  | .text t => t
  | _ => none

/-- An integer. -/
def int? : Json → Option Int
  | .number n => n.toInt?
  | _ => none

/-- A 32-bit integer. -/
def int32? (j : Json) : Option Int32 := do
  let i ← j.int?
  if Int32.minValue.toInt ≤ i ∧ i ≤ Int32.maxValue.toInt then some (Int32.ofInt i) else none

/-- A natural number of 64 bits. -/
def nat64? (j : Json) : Option Nat := do
  let i ← j.int?
  if 0 ≤ i ∧ i < UInt64.size then some i.toNat else none

/-- A double. -/
def double? : Json → Option Float
  | .number n => n.toFloat?
  | _ => none

/-- Items of an array. -/
def items? : Json → Option (List Json)
  | .array items => some items
  | _ => none

/-! ## Fields of loose objects -/

/-- The first field of a name in an object; a field that is null counts as not given. -/
def get? : Json → String → Option Json
  | .object fields, name =>
    match fields.find? fun f => f.1 = some name with
    | some (_, .null) => none
    | some (_, j) => some j
    | none => none
  | _, _ => none

/-- The text in a field. -/
def getString? (j : Json) (name : String) : Option String := (j.get? name).bind string?

/-- The natural number in a field. -/
def getNat? (j : Json) (name : String) : Option Nat := (j.get? name).bind nat64?

/-- The items of the array in a field; left out, there are none. -/
def getItems (j : Json) (name : String) : List Json := ((j.get? name).bind items?).getD []

/-- The fields of an object by name. -/
def namedFields : Json → List (String × Json)
  | .object fields => fields.filterMap fun f => f.1.map fun name => (name, f.2)
  | _ => []

end CallByNeed.Json
