import CallByNeed.Code.OfBody
import CallByNeed.Expr.Program
import CallByNeed.Flow.OfExpr

/-!
# Compiled programs

The definitions of a program, each compiled on its own, and its body. The first definition that
cannot be compiled decides the error, whatever comes after it.
-/

namespace CallByNeed

/-- The name of the unit of a program's body. -/
def mainUnit : String := "main"

/-- The units of a program: one function per definition, in order, and the body. -/
structure CompiledProgram where
  definitions : List (Symbol × FunctionUnit)
  main : CodeUnit

/-- The lines of all units of a program. -/
def CompiledProgram.listing? (p : CompiledProgram) : Option (List String) := do
  let definitions ← CodeUnit.closureListings? (p.definitions.map Prod.snd)
  let main ← p.main.listing?
  some (definitions ++ main)

namespace Compiling

/-- Drafts something with identities of its own. -/
def draft {α : Type} (step : Flow.Drafting α) : Compiling α := fun journal =>
  match step {} with
  | .ok (x, _) => .ok x journal
  | .error e => .error e journal

/-- The unit of an expression. -/
def expression (options : CompilerOptions) (ids : Flow.IdSource) (name : String) (e : Expr) :
    Compiling CodeUnit := do
  let body ← draft (Flow.bodyOf options ids e)
  unit options name body

/-- The unit of a function literal. -/
def functionLiteral (options : CompilerOptions) (ids : Flow.IdSource) (shown : Option Symbol)
    (name : String) (f : Function) : Compiling FunctionUnit := do
  let procedure ← draft (Flow.procedureOf options ids shown f)
  function options name procedure

/-- The unit of a definition. -/
def definition (options : CompilerOptions) (ids : Flow.IdSource) (d : Definition) :
    Compiling (Symbol × FunctionUnit) := do
  let unit ← functionLiteral options ids (some d.name) d.name.name d.function
  return (d.name, unit)

/-- All units of a program. -/
def program (options : CompilerOptions) (ids : Flow.IdSource) (p : Program) :
    Compiling CompiledProgram := do
  let definitions ← p.definitions.mapM (definition options ids)
  let main ← expression options ids mainUnit p.body
  modify fun journal => journal.push ⟨.debug,
    s!"compiled program: {definitions.length} definitions, main {main.code.size} bytes"⟩
  return ⟨definitions, main⟩

end Compiling

end CallByNeed
