import CallByNeed.Decimal.Layout
import CallByNeed.Expr.Basic

/-!
# The text of an expression

One line per expression, in the notation that error messages quote: `f(x = 1, 2L)`,
`function(x, y = 1) x`. Names are put in backquotes where they need quotes, except as the names of
arguments and formals; texts are put in double quotes as they are.
-/

namespace CallByNeed

/-- The decimal text of a 32-bit integer. -/
def Int32.text (n : Int32) : String := toString n.toInt

/-- The text of a truth value. -/
def logicalText (b : Bool) : String := if b then "TRUE" else "FALSE"

namespace Expr

mutual

/-- The text of an expression. -/
def text : Expr → String
  | .null => "NULL"
  | .logical b => logicalText b
  | .int n => Int32.text n ++ "L"
  | .double x => Decimal.display x
  | .str s => "\"" ++ s ++ "\""
  | .symbol s => s.quoted
  | .call (.function formals body) args =>
    "(function(" ++ ", ".intercalate (formalTexts formals) ++ ") " ++ body.text ++ ")("
      ++ ", ".intercalate (argTexts args) ++ ")"
  | .call callee args => callee.text ++ "(" ++ ", ".intercalate (argTexts args) ++ ")"
  | .function formals body =>
    "function(" ++ ", ".intercalate (formalTexts formals) ++ ") " ++ body.text

/-- The texts of the arguments of a call. -/
def argTexts : List (Arg Expr) → List String
  | [] => []
  | ⟨some name, value⟩ :: rest => (name.name ++ " = " ++ value.text) :: argTexts rest
  | ⟨none, value⟩ :: rest => value.text :: argTexts rest

/-- The texts of the formals of a function. -/
def formalTexts : List (Formal Expr) → List String
  | [] => []
  | ⟨name, some default⟩ :: rest => (name.name ++ " = " ++ default.text) :: formalTexts rest
  | ⟨name, none⟩ :: rest => name.name :: formalTexts rest

end

end Expr

/-- The text of a call. -/
def Call.text (c : Call) : String := c.toExpr.text

/-- The text of a function literal. -/
def Function.text (f : Function) : String := f.toExpr.text

end CallByNeed
