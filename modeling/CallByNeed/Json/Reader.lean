import CallByNeed.Json.Basic

/-!
# Reading JSON

Strict JSON: the whole text is one value with nothing around it but blanks. The readers take the
front off a list of characters and return the rest; a value's reader is bounded by the length of the
text, since each step takes at least one character.
-/

namespace CallByNeed.Json

/-! ## Blanks and words -/

/-- The four blanks of JSON. -/
def isBlank (c : Char) : Bool :=
  c = ' ' || c = '\n' || c = '\t' || c = '\r'

/-- Drops the blanks in front. -/
def skipBlanks (input : List Char) : List Char :=
  input.dropWhile isBlank

/-- Takes a word off the front. -/
def takeWord? : List Char → List Char → Option (List Char)
  | [], rest => some rest
  | c :: word, d :: rest => if c = d then takeWord? word rest else none
  | _ :: _, [] => none

/-! ## Numbers -/

/-- The exponent of a number, if there is one: a sign at will and at least one digit. -/
def readExponent? (input : List Char) : Option (Option (Bool × List Char) × List Char) :=
  match input with
  | c :: rest =>
    if c = 'e' || c = 'E' then
      let (negative, rest) :=
        match rest with
        | '-' :: rest => (true, rest)
        | '+' :: rest => (false, rest)
        | rest => (false, rest)
      match rest.span Char.isDigit with
      | ([], _) => none
      | (digits, rest) => some (some (negative, digits), rest)
    else some (none, input)
  | [] => some (none, [])

/-- The digits behind a point, if there is one: at least one digit. -/
def readFraction? (input : List Char) : Option (List Char × List Char) :=
  match input with
  | '.' :: rest =>
    match rest.span Char.isDigit with
    | ([], _) => none
    | (digits, rest) => some (digits, rest)
  | _ => some ([], input)

/-- The digits in front of the point: a single zero, or digits that do not start with one. -/
def readWhole? (input : List Char) : Option (List Char × List Char) :=
  match input.span Char.isDigit with
  | ([], _) => none
  | ('0' :: _ :: _, _) => none
  | (digits, rest) => some (digits, rest)

/-- A number without its sign. -/
def readMagnitude? (negative : Bool) (input : List Char) : Option (Number × List Char) := do
  let (whole, input) ← readWhole? input
  let (fraction, input) ← readFraction? input
  let (exponent, input) ← readExponent? input
  some (⟨negative, whole, fraction, exponent⟩, input)

/-- A number. -/
def readNumber? (input : List Char) : Option (Number × List Char) :=
  match input with
  | '-' :: rest => readMagnitude? true rest
  | _ => readMagnitude? false input

/-! ## Texts -/

/-- The value of a hexadecimal digit. -/
def hexValue? (c : Char) : Option Nat :=
  if '0' ≤ c ∧ c ≤ '9' then some (c.toNat - '0'.toNat)
  else if 'a' ≤ c ∧ c ≤ 'f' then some (c.toNat - 'a'.toNat + 10)
  else if 'A' ≤ c ∧ c ≤ 'F' then some (c.toNat - 'A'.toNat + 10)
  else none

/-- A unit of a text: a character, or a half of a surrogate pair. -/
inductive Piece where
  | char (c : Char)
  | half (unit : Nat)

/-- The unit that four hexadecimal digits name. -/
def Piece.ofUnit (unit : Nat) : Piece :=
  if 0xD800 ≤ unit ∧ unit ≤ 0xDFFF then .half unit else .char (Char.ofNat unit)

/-- The character that a two-character escape stands for. -/
def escaped? (c : Char) : Option Char :=
  match c with
  | '"' => some '"'
  | '\\' => some '\\'
  | '/' => some '/'
  | 'b' => some '\x08'
  | 'f' => some '\x0c'
  | 'n' => some '\n'
  | 'r' => some '\r'
  | 't' => some '\t'
  | _ => none

/-- The units of a text up to its closing quote, last one first. Control characters must be
escaped. -/
def readPieces? : List Char → List Piece → Option (List Piece × List Char)
  | '"' :: rest, acc => some (acc, rest)
  | '\\' :: 'u' :: a :: b :: c :: d :: rest, acc =>
    match hexValue? a, hexValue? b, hexValue? c, hexValue? d with
    | some a, some b, some c, some d =>
      readPieces? rest (Piece.ofUnit (((a * 16 + b) * 16 + c) * 16 + d) :: acc)
    | _, _, _, _ => none
  | '\\' :: c :: rest, acc =>
    match escaped? c with
    | some c => readPieces? rest (.char c :: acc)
    | none => none
  | c :: rest, acc => if c.toNat < 0x20 then none else readPieces? rest (.char c :: acc)
  | [], _ => none

/-- Joins the halves of surrogate pairs, walking from the last unit to the first. -/
def joinHalves? : List Piece → List Char → Option (List Char)
  | [], acc => some acc
  | .char c :: rest, acc => joinHalves? rest (c :: acc)
  | .half low :: .half high :: rest, acc =>
    if high < 0xDC00 ∧ 0xDC00 ≤ low then
      joinHalves? rest (Char.ofNat (0x10000 + (high - 0xD800) * 0x400 + (low - 0xDC00)) :: acc)
    else none
  | .half _ :: _, _ => none

/-- A text behind its opening quote. -/
def readText? (input : List Char) : Option (Text × List Char) :=
  (readPieces? input []).map fun p => ((joinHalves? p.1 []).map String.ofList, p.2)

/-! ## Values -/

mutual

/-- A value, behind blanks. -/
def readValue? : Nat → List Char → Option (Json × List Char)
  | 0, _ => none
  | fuel + 1, input =>
    match skipBlanks input with
    | 'n' :: rest => (takeWord? "ull".toList rest).map fun rest => (.null, rest)
    | 't' :: rest => (takeWord? "rue".toList rest).map fun rest => (.bool true, rest)
    | 'f' :: rest => (takeWord? "alse".toList rest).map fun rest => (.bool false, rest)
    | '"' :: rest => (readText? rest).map fun p => (.text p.1, p.2)
    | '[' :: rest =>
      match skipBlanks rest with
      | ']' :: rest => some (.array [], rest)
      | rest => readItems? fuel rest []
    | '{' :: rest =>
      match skipBlanks rest with
      | '}' :: rest => some (.object [], rest)
      | rest => readFields? fuel rest []
    | rest => (readNumber? rest).map fun p => (.number p.1, p.2)

/-- The items of an array up to its end; `acc` holds those read, last one first. -/
def readItems? : Nat → List Char → List Json → Option (Json × List Char)
  | 0, _, _ => none
  | fuel + 1, input, acc =>
    match readValue? fuel input with
    | none => none
    | some (item, rest) =>
      match skipBlanks rest with
      | ',' :: rest => readItems? fuel rest (item :: acc)
      | ']' :: rest => some (.array (item :: acc).reverse, rest)
      | _ => none

/-- The fields of an object up to its end; `acc` holds those read, last one first. -/
def readFields? : Nat → List Char → List (Text × Json) → Option (Json × List Char)
  | 0, _, _ => none
  | fuel + 1, input, acc =>
    match skipBlanks input with
    | '"' :: rest =>
      match readText? rest with
      | none => none
      | some (key, rest) =>
        match skipBlanks rest with
        | ':' :: rest =>
          match readValue? fuel rest with
          | none => none
          | some (value, rest) =>
            match skipBlanks rest with
            | ',' :: rest => readFields? fuel rest ((key, value) :: acc)
            | '}' :: rest => some (.object ((key, value) :: acc).reverse, rest)
            | _ => none
        | _ => none
    | _ => none

end

/-- The value that a whole text holds, if it holds one. -/
def read? (text : String) : Option Json :=
  let chars := text.toList
  match readValue? (chars.length + 1) chars with
  | some (value, rest) => if (skipBlanks rest).isEmpty then some value else none
  | none => none

end CallByNeed.Json
