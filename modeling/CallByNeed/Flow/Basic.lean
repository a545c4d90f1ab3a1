import CallByNeed.Expr.Basic

/-!
# Flow bodies

The linear form between source and code: statements over simple operands, with labels between them.
Arguments that are evaluated late carry a body of their own. Temporaries, local variables, labels
and nested bodies have identities, so that two equal texts stay two different things.
-/

namespace CallByNeed.Flow

/-! ## Identities -/

/-- A branch target. -/
structure Label where
  id : Nat
deriving DecidableEq

/-- The identity of a nested body. Nested bodies are compiled once per identity, never by
structure. -/
structure NodeId where
  id : Nat
deriving DecidableEq

/-- A call with an identity: two calls that read the same are two sites. -/
structure CallSite where
  id : Nat
  call : Call

/-- What a slot of the frame is kept for: a temporary or a local variable. -/
inductive SlotKey where
  | temp (id : Nat)
  | local (id : Nat)
deriving DecidableEq

/-- What can be assigned to: a temporary, a local variable that lives in the frame, or a variable of
the environment. -/
inductive Target where
  | temp (id : Nat)
  | local (id : Nat) (name : Symbol)
  | env (name : Symbol)

/-- The slot of a target that lives in the frame. -/
def Target.slotKey? : Target → Option SlotKey
  | .temp id => some (.temp id)
  | .local id _ => some (.local id)
  | .env _ => none

/-! ## Statements over operands -/

/-- A statement whose operands are of type `τ`. -/
inductive Statement (τ : Type) where
  | assign (target : Target) (value : τ)
  /-- Evaluated for its effect only. -/
  | eval (value : τ)
  | goto (target : Label)
  | branch (condition : τ) (yes no : Label)
  | ret (value : τ)

/-- A line of a body: a label, which stands for the statement behind it, or a statement. -/
inductive Line (τ : Type) where
  | label (l : Label)
  | statement (s : Statement τ)

/-- An expression to be evaluated late: its source and its body. -/
structure Deferred (τ : Type) where
  node : NodeId
  source : Expr
  body : List (Line τ)

/-- A function literal in flow form. -/
structure Procedure (τ : Type) where
  name : Option Symbol
  formals : List (Formal (Deferred τ))
  body : List (Line τ)

/-- The arguments of a call, with the call they come from. The names run beside the arguments. -/
structure Operands (τ : Type) where
  site : CallSite
  args : List τ
  names : List (Option Symbol)

/-- What a call invokes: a name, looked up as a function, or a value that must turn out callable. -/
inductive Callee (τ : Type) where
  | name (s : Symbol)
  | computed (t : τ)

/-- An operand. -/
inductive Term where
  /-- A native integer. -/
  | int (n : Int32)
  /-- A literal, rebuilt as a value each time. -/
  | literal (e : Expr)
  | temp (id : Nat)
  | local (id : Nat) (name : Symbol)
  | env (name : Symbol)
  | element (vector index : Term)
  | length (vector : Term)
  | increment (counter : Term)
  /-- The comparison `left >= right`. -/
  | atLeast (left right : Term)
  | closure (node : NodeId) (procedure : Procedure Term)
  | thunk (deferred : Deferred Term)
  /-- The place where the arguments bound to `...` go. -/
  | ellipsis
  /-- A call of a builtin known by name. -/
  | primitive (name : Symbol) (operands : Operands Term)
  | call (callee : Callee Term) (operands : Operands Term)

/-- A linear body: statements with labels between them. -/
abbrev Body := List (Line Term)

/-- A late argument. -/
abbrev Thunk := Deferred Term

/-! ## Operands -/

namespace Term

/-- The literal `NULL`. -/
def null : Term := .literal .null

/-- The operand that reads a target. -/
def ofTarget : Target → Term
  | .temp id => .temp id
  | .local id name => .local id name
  | .env name => .env name

/-- The slot that the operand reads, if it reads one. -/
def slotKey? : Term → Option SlotKey
  | .temp id => some (.temp id)
  | .local id _ => some (.local id)
  | _ => none

/-- Evaluating the operand has no effect, so that it can be dropped. -/
def isTrivial : Term → Bool
  | .int _ | .literal _ | .temp _ | .local .. => true
  | _ => false

/-- The operand is the place of `...`. -/
def isEllipsis : Term → Bool
  | .ellipsis => true
  | _ => false

end Term

/-- The variable that a late argument reads, if it is a bare name. -/
def Deferred.name? {τ : Type} (d : Deferred τ) : Option Symbol := d.source.symbol?

/-- Where the first `...` stands among the arguments. -/
def Operands.ellipsisIndex? (o : Operands Term) : Option Nat :=
  o.args.findIdx? Term.isEllipsis

/-- How often `...` stands among the arguments. -/
def Operands.ellipsisCount (o : Operands Term) : Nat :=
  o.args.countP Term.isEllipsis

/-! ## Statements -/

namespace Statement

variable {τ : Type}

/-- The statement transfers control, so that it ends a block. -/
def isTransfer : Statement τ → Bool
  | .goto _ | .branch .. | .ret _ => true
  | .assign .. | .eval _ => false

/-- The labels that the statement may transfer control to. -/
def successors : Statement τ → List Label
  | .goto l => [l]
  | .branch _ yes no => [yes, no]
  | _ => []

end Statement

/-! ## Bodies -/

namespace Body

/-- The statements of a body, without the labels. -/
def statements (b : Body) : List (Statement Term) :=
  b.filterMap fun
    | .label _ => none
    | .statement s => some s

/-- How many statements a body has. -/
def size (b : Body) : Nat :=
  b.foldl (fun n line => match line with | .label _ => n | .statement _ => n + 1) 0

end Body

end CallByNeed.Flow
