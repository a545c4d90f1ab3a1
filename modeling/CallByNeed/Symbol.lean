import CallByNeed.Text.Letter

/-!
# Symbols

Names of variables, functions and arguments. One name is special: `...` stands for the arguments
that a function collects without naming them.
-/

namespace CallByNeed

/-- A name. -/
structure Symbol where
  name : String
deriving DecidableEq

namespace Symbol

/-- The name `...`. -/
def ellipsis : Symbol := ⟨"..."⟩

/-- The symbol is `...`. -/
def isEllipsis (s : Symbol) : Bool :=
  s = ellipsis

/-- The name can be written without quotes: a letter or a point, then letters, numbers, points and
underscores. -/
def isSyntactic (s : Symbol) : Bool :=
  match s.name.toList with
  | [] => false
  | c :: rest =>
    (Text.isAlphabetic c || c = '.')
      && rest.all fun c => Text.isAlphanumeric c || c = '.' || c = '_'

/-- The name, in backquotes if it needs quotes. -/
def quoted (s : Symbol) : String :=
  if s.isSyntactic then s.name else "`" ++ s.name ++ "`"

end Symbol

end CallByNeed
