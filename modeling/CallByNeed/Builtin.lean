/-!
# Builtin functions and special forms by name

The functions that every global environment holds. Builtins receive evaluated values, special forms
the call as written.
-/

namespace CallByNeed

/-- A builtin function. -/
inductive Builtin where
  | add | sub | mul | div | atLeast | less | equal | not | sum | concat | list | length | identity
  | element | paste
deriving DecidableEq

namespace Builtin

/-- The name of a builtin. -/
def name : Builtin → String
  | add => "+"
  | sub => "-"
  | mul => "*"
  | div => "/"
  | atLeast => ">="
  | less => "<"
  | equal => "=="
  | not => "!"
  | sum => "sum"
  | concat => "c"
  | list => "list"
  | length => "length"
  | identity => "identity"
  | element => "[["
  | paste => "paste"

/-- All builtins. -/
def all : List Builtin :=
  [add, sub, mul, div, atLeast, less, equal, not, sum, concat, list, length, identity, element,
    paste]

/-- The builtin with a name. -/
def ofName? (s : String) : Option Builtin := all.find? fun b => b.name = s

end Builtin

/-- A special form. -/
inductive Special where
  | quote | cond | block | assign | loop
deriving DecidableEq

namespace Special

/-- The name of a special form. -/
def name : Special → String
  | quote => "quote"
  | cond => "if"
  | block => "\x7b"
  | assign => "<-"
  | loop => "for"

/-- All special forms. -/
def all : List Special := [quote, cond, block, assign, loop]

/-- The special form with a name. -/
def ofName? (s : String) : Option Special := all.find? fun f => f.name = s

end Special

end CallByNeed
