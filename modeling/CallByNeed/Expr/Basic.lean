import CallByNeed.Symbol

/-!
# Source expressions

The expressions that programs are made of, before anything is evaluated: literals, names, calls and
function literals. A call keeps its arguments as written, since some of the functions it may reach
want them unevaluated.
-/

namespace CallByNeed

/-- One supplied argument, with a name or without. -/
structure Arg (α : Type) where
  name : Option Symbol
  value : α

/-- A formal parameter, with a default or without. -/
structure Formal (α : Type) where
  name : Symbol
  default : Option α

/-- A source expression. -/
inductive Expr where
  | null
  | logical (b : Bool)
  | int (n : Int32)
  | double (x : Float)
  | str (s : String)
  | symbol (s : Symbol)
  | call (callee : Expr) (args : List (Arg Expr))
  | function (formals : List (Formal Expr)) (body : Expr)

/-- A call as written. -/
structure Call where
  callee : Expr
  args : List (Arg Expr)

/-- A function literal. -/
structure Function where
  formals : List (Formal Expr)
  body : Expr

/-! ## Expressions -/

namespace Expr

/-- The name, if the expression is one. -/
def symbol? : Expr → Option Symbol
  | .symbol s => some s
  | _ => none

/-- Literals, which evaluate to themselves. They never need a promise. -/
def isConstant : Expr → Bool
  | .null | .logical _ | .int _ | .double _ | .str _ => true
  | .symbol _ | .call .. | .function .. => false

/-- The expression is the name `...`. -/
def isEllipsis : Expr → Bool
  | .symbol s => s.isEllipsis
  | _ => false

end Expr

/-! ## Calls and functions -/

namespace Call

/-- The call as an expression. -/
def toExpr (c : Call) : Expr := .call c.callee c.args

/-- The called name, if the callee is one. -/
def name? (c : Call) : Option Symbol := c.callee.symbol?

/-- The argument at a position, from zero. -/
def arg? (c : Call) (i : Nat) : Option Expr := c.args[i]?.map Arg.value

/-- The first argument with a name. -/
def named? (c : Call) (name : String) : Option Expr :=
  (c.args.find? fun a => a.name = some ⟨name⟩).map Arg.value

/-- One of the arguments is `...`. -/
def hasEllipsis (c : Call) : Bool := c.args.any fun a => a.value.isEllipsis

end Call

/-- The function literal as an expression. -/
def Function.toExpr (f : Function) : Expr := .function f.formals f.body

/-! ## Equality -/

namespace Expr

mutual

/-- Equality part by part, with doubles compared as numbers: `-0` equals `0`. -/
def same : Expr → Expr → Bool
  | .null, .null => true
  | .logical a, .logical b => a = b
  | .int a, .int b => a = b
  | .double a, .double b => a == b
  | .str a, .str b => a = b
  | .symbol a, .symbol b => a = b
  | .call f xs, .call g ys => f.same g && sameArgs xs ys
  | .function xs f, .function ys g => sameFormals xs ys && f.same g
  | _, _ => false

/-- Equality of argument lists. -/
def sameArgs : List (Arg Expr) → List (Arg Expr) → Bool
  | [], [] => true
  | ⟨n, x⟩ :: xs, ⟨m, y⟩ :: ys => n = m && x.same y && sameArgs xs ys
  | _, _ => false

/-- Equality of formal lists. -/
def sameFormals : List (Formal Expr) → List (Formal Expr) → Bool
  | [], [] => true
  | ⟨n, some x⟩ :: xs, ⟨m, some y⟩ :: ys => n = m && x.same y && sameFormals xs ys
  | ⟨n, none⟩ :: xs, ⟨m, none⟩ :: ys => n = m && sameFormals xs ys
  | _, _ => false

end

end Expr

end CallByNeed
