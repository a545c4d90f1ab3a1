import CallByNeed.Expr.Json
import CallByNeed.Expr.Text

/-!
# Constants

What the code of a unit refers to by index: literals, names, calls as written, and builtins by name.
-/

namespace CallByNeed

/-- An entry of a unit's constant pool. -/
inductive Constant where
  | literal (e : Expr)
  /-- The name that a lookup, a store or a named argument uses. -/
  | name (s : Symbol)
  /-- A call as written, for special forms and for messages. -/
  | call (c : Call)
  /-- A builtin known by name. -/
  | primitive (s : Symbol)

namespace Constant

/-- The text of a constant in listings. -/
def text : Constant → String
  | .literal e => e.text
  | .name s => "name " ++ s.name
  | .call c => "call " ++ c.text
  | .primitive s => "primitive " ++ s.name

/-- The JSON form of a constant, which fingerprints are made of. -/
def toJson : Constant → Json
  | .literal e => .record [("Literal", e.toJson)]
  | .name s => .record [("Name", .str s.name)]
  | .call c => .record [("Call", c.toJson)]
  | .primitive s => .record [("Primitive", .str s.name)]

end Constant

end CallByNeed
