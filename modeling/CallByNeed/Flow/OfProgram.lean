import CallByNeed.Expr.Program
import CallByNeed.Flow.Graph
import CallByNeed.Flow.OfExpr

/-!
# The graphs of a program

The definitions of a program in flow form, in order, and then its body. All of them draw their
identities from one source, so that the labels and temporaries of a program count on from one
definition to the next.
-/

namespace CallByNeed.Flow

/-- A body of a program with the name it is shown under. -/
structure Unit where
  name : String
  body : Body

/-- The lines that show a unit: a title and its graph. -/
def Unit.lines (u : Unit) : List String :=
  s!"== {u.name} ==" :: (Graph.ofBody u.body).lines

/-- Drafts the units of the definitions, then the one of the body. What has been drafted before an
error comes with it. -/
def unitsFrom (options : CompilerOptions) (ids : IdSource) (draft : Draft) (body : Expr) :
    List Definition → List Unit × Option CompileError
  | [] =>
    match bodyOf options ids body draft with
    | .ok (b, _) => ([⟨"main", b⟩], none)
    | .error e => ([], some e)
  | d :: rest =>
    match procedureOf options ids (some d.name) d.function draft with
    | .ok (p, draft) =>
      let (units, error?) := unitsFrom options ids draft body rest
      (⟨p.displayName, p.body⟩ :: units, error?)
    | .error e => ([], some e)

/-- The units of a program up to the first one that cannot be drafted, and the error of that one. -/
def unitsOfProgram (options : CompilerOptions) (ids : IdSource) (p : Program) :
    List Unit × Option CompileError :=
  unitsFrom options ids {} p.body p.definitions

end CallByNeed.Flow
