import CallByNeed.Expr.Text
import CallByNeed.Flow.Basic

/-!
# The text of a flow body

Statements in the notation `t0 := f(thunk#1<x>, 2)`, indented by two blanks, with labels on lines of
their own.
-/

namespace CallByNeed.Flow

/-- The text of a label. -/
def Label.text (l : Label) : String := s!"L{l.id}"

/-- The text of an identity. -/
def NodeId.text (n : NodeId) : String := s!"#{n.id}"

/-- The text of a temporary. -/
def tempText (id : Nat) : String := s!"t{id}"

/-- The text of a local variable. -/
def localText (id : Nat) (name : Symbol) : String := s!"{name.name}_{id}"

/-- The text of a target. -/
def Target.text : Target → String
  | .temp id => tempText id
  | .local id name => localText id name
  | .env name => name.name

/-- Puts the names in front of the arguments that have one. -/
def namedTexts : List String → List (Option Symbol) → List String
  | [], _ => []
  | text :: texts, some name :: names => (name.name ++ " = " ++ text) :: namedTexts texts names
  | text :: texts, none :: names => text :: namedTexts texts names
  | texts, [] => texts

namespace Term

mutual

/-- The text of an operand. -/
def text : Term → String
  | .int n => Int32.text n ++ "i"
  | .literal e => e.text
  | .temp id => tempText id
  | .local id name => localText id name
  | .env name => name.name
  | .element vector index => vector.text ++ "[" ++ index.text ++ "]"
  | .length vector => "length(" ++ vector.text ++ ")"
  | .increment counter => "increment(" ++ counter.text ++ ")"
  | .atLeast left right => left.text ++ " >= " ++ right.text
  | .closure node _ => "closure" ++ node.text
  | .thunk d => "thunk" ++ d.node.text ++ "<" ++ d.source.text ++ ">"
  | .ellipsis => "..."
  | .primitive name ⟨_, args, names⟩ =>
    "primitive<" ++ name.name ++ ">(" ++ ", ".intercalate (namedTexts (texts args) names) ++ ")"
  | .call (.name s) ⟨_, args, names⟩ =>
    s.name ++ "(" ++ ", ".intercalate (namedTexts (texts args) names) ++ ")"
  | .call (.computed callee) ⟨_, args, names⟩ =>
    "(" ++ callee.text ++ ")(" ++ ", ".intercalate (namedTexts (texts args) names) ++ ")"

/-- The texts of operands. -/
def texts : List Term → List String
  | [] => []
  | t :: ts => t.text :: texts ts

end

end Term

/-- The text of a statement. -/
def Statement.text : Statement Term → String
  | .assign target value => target.text ++ " := " ++ value.text
  | .eval value => value.text
  | .goto l => "goto " ++ l.text
  | .branch condition yes no =>
    "if " ++ condition.text ++ " => " ++ yes.text ++ " else " ++ no.text
  | .ret value => "return " ++ value.text

/-- The text of a line. -/
def Line.text : Line Term → String
  | .label l => l.text ++ ":"
  | .statement s => "  " ++ s.text

/-- The lines of a body. -/
def Body.lines (b : Body) : List String := b.map Line.text

/-- The name a procedure is shown under. -/
def Procedure.displayName {τ : Type} (p : Procedure τ) : String :=
  match p.name with
  | some name => name.name
  | none => "<anonymous>"

end CallByNeed.Flow
