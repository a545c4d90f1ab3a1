import CallByNeed.Expr.Basic

/-!
# Programs

A program defines functions by name in the global environment and then evaluates a body there.
-/

namespace CallByNeed

/-- A named top-level function. -/
structure Definition where
  name : Symbol
  function : Function

/-- Definitions, then a body. -/
structure Program where
  definitions : List Definition
  body : Expr

/-- Equality part by part, as `Expr.same`. -/
def Program.same (p q : Program) : Bool :=
  p.definitions.length = q.definitions.length
    && ((p.definitions.zip q.definitions).all fun d =>
      d.1.name = d.2.name && d.1.function.toExpr.same d.2.function.toExpr)
    && p.body.same q.body

end CallByNeed
