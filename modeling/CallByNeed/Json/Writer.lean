import CallByNeed.Json.Basic

/-!
# Writing JSON

Two layouts of a value: `compact`, without any blanks, and `pretty`, with a line per item or field
and two blanks of indentation per level. In both a text escapes only the quote, the backslash and
the control characters below U+0020.
-/

namespace CallByNeed.Json

/-! ## Leaves -/

/-- A hexadecimal digit, in lower case. -/
def hexDigit (n : Nat) : Char :=
  if n < 10 then Char.ofNat ('0'.toNat + n) else Char.ofNat ('a'.toNat + (n - 10))

/-- A character inside a text. -/
def escape (c : Char) : List Char :=
  if c = '"' then ['\\', '"']
  else if c = '\\' then ['\\', '\\']
  else if c = '\x08' then ['\\', 'b']
  else if c = '\t' then ['\\', 't']
  else if c = '\n' then ['\\', 'n']
  else if c = '\x0c' then ['\\', 'f']
  else if c = '\r' then ['\\', 'r']
  else if c.toNat < 0x20 then
    ['\\', 'u', '0', '0', hexDigit (c.toNat / 16), hexDigit (c.toNat % 16)]
  else [c]

/-- A text between its quotes. A text without characters has no written form of its own and is
written as an empty one. -/
def Text.chars (t : Text) : List Char :=
  '"' :: ((t.getD "").toList.flatMap escape ++ ['"'])

/-- A number as it was written. -/
def Number.chars (n : Number) : List Char :=
  (if n.negative then ['-'] else []) ++ n.whole
    ++ (if n.fraction.isEmpty then [] else '.' :: n.fraction)
    ++ (match n.exponent with
        | none => []
        | some (negative, digits) => 'e' :: (if negative then '-' else '+') :: digits)

/-! ## Compact -/

mutual

/-- A value without blanks. -/
def compactChars : Json → List Char
  | .null => "null".toList
  | .bool true => "true".toList
  | .bool false => "false".toList
  | .number n => n.chars
  | .text t => Text.chars t
  | .array [] => ['[', ']']
  | .array (item :: items) => '[' :: (compactChars item ++ compactItems items)
  | .object [] => ['\x7b', '\x7d']
  | .object ((key, value) :: fields) =>
    '\x7b' :: (Text.chars key ++ ':' :: (compactChars value ++ compactFields fields))

/-- The items behind the first one, and the end of the array. -/
def compactItems : List Json → List Char
  | [] => [']']
  | item :: items => ',' :: (compactChars item ++ compactItems items)

/-- The fields behind the first one, and the end of the object. -/
def compactFields : List (Text × Json) → List Char
  | [] => ['\x7d']
  | (key, value) :: fields =>
    ',' :: (Text.chars key ++ ':' :: (compactChars value ++ compactFields fields))

end

/-- The compact text of a value. -/
def compact (j : Json) : String :=
  String.ofList j.compactChars

/-! ## Pretty -/

/-- A new line at an indentation level. -/
def newline (level : Nat) : List Char :=
  '\n' :: List.replicate (2 * level) ' '

mutual

/-- A value on lines of its own, whose first line is already indented to `level`. -/
def prettyChars (level : Nat) : Json → List Char
  | .null => "null".toList
  | .bool true => "true".toList
  | .bool false => "false".toList
  | .number n => n.chars
  | .text t => Text.chars t
  | .array [] => ['[', ']']
  | .array (item :: items) =>
    '[' :: (newline (level + 1) ++ prettyChars (level + 1) item ++ prettyItems level items)
  | .object [] => ['\x7b', '\x7d']
  | .object ((key, value) :: fields) =>
    '\x7b' :: (newline (level + 1) ++ Text.chars key ++ [':', ' ']
      ++ prettyChars (level + 1) value ++ prettyFields level fields)

/-- The items behind the first one, and the end of the array. -/
def prettyItems (level : Nat) : List Json → List Char
  | [] => newline level ++ [']']
  | item :: items =>
    ',' :: (newline (level + 1) ++ prettyChars (level + 1) item ++ prettyItems level items)

/-- The fields behind the first one, and the end of the object. -/
def prettyFields (level : Nat) : List (Text × Json) → List Char
  | [] => newline level ++ ['\x7d']
  | (key, value) :: fields =>
    ',' :: (newline (level + 1) ++ Text.chars key ++ [':', ' ']
      ++ prettyChars (level + 1) value ++ prettyFields level fields)

end

/-- The pretty text of a value. -/
def pretty (j : Json) : String :=
  String.ofList (j.prettyChars 0)

end CallByNeed.Json
