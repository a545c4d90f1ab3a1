import CallByNeed.Code.Error
import CallByNeed.Flow.Basic

/-!
# Drafting a body

A body is drafted by appending lines. Fresh identities come from an `IdSource`, which says what the
n-th label, slot, nested body and call site is called; the draft counts how many of each have
been taken. Nothing that is compiled depends on the source, as long as it does not repeat itself.
-/

namespace CallByNeed.Flow

/-- The identities handed out, by order: of labels, of temporaries and local variables together, of
nested bodies, and of call sites. -/
structure IdSource where
  label : Nat → Nat
  slot : Nat → Nat
  node : Nat → Nat
  site : Nat → Nat

/-- Counting from zero. -/
def IdSource.counting : IdSource := ⟨id, id, id, id⟩

/-- How many identities of each sort have been taken. -/
structure Taken where
  labels : Nat := 0
  slots : Nat := 0
  nodes : Nat := 0
  sites : Nat := 0

/-- A body being drafted, and the identities taken so far. -/
structure Draft where
  taken : Taken := {}
  lines : Array (Line Term) := #[]

/-- A step of drafting, which may fail. -/
abbrev Drafting := StateT Draft (Except CompileError)

namespace Drafting

/-! ## Fresh identities -/

/-- A fresh label. -/
def label (ids : IdSource) : Drafting Label := do
  let d ← get
  set { d with taken := { d.taken with labels := d.taken.labels + 1 } }
  return ⟨ids.label d.taken.labels⟩

/-- A fresh temporary or local variable. -/
def slot (ids : IdSource) : Drafting Nat := do
  let d ← get
  set { d with taken := { d.taken with slots := d.taken.slots + 1 } }
  return ids.slot d.taken.slots

/-- A fresh identity of a nested body. -/
def node (ids : IdSource) : Drafting NodeId := do
  let d ← get
  set { d with taken := { d.taken with nodes := d.taken.nodes + 1 } }
  return ⟨ids.node d.taken.nodes⟩

/-- A fresh site of a call. -/
def site (ids : IdSource) (call : Call) : Drafting CallSite := do
  let d ← get
  set { d with taken := { d.taken with sites := d.taken.sites + 1 } }
  return ⟨ids.site d.taken.sites, call⟩

/-! ## Lines -/

/-- Appends a line. -/
def line (l : Line Term) : Drafting Unit :=
  modify fun d => { d with lines := d.lines.push l }

/-- Appends a statement. -/
def statement (s : Statement Term) : Drafting Unit := line (.statement s)

/-- Appends an assignment. -/
def assign (target : Target) (value : Term) : Drafting Unit := statement (.assign target value)

/-- Appends an evaluation for effect. -/
def eval (value : Term) : Drafting Unit := statement (.eval value)

/-- Appends a jump. -/
def goto (l : Label) : Drafting Unit := statement (.goto l)

/-- Appends a branch. -/
def branch (condition : Term) (yes no : Label) : Drafting Unit :=
  statement (.branch condition yes no)

/-- Appends a return. -/
def ret (value : Term) : Drafting Unit := statement (.ret value)

/-- Places a label in front of the next statement. -/
def place (l : Label) : Drafting Unit := line (.label l)

/-- Evaluates an operand for its effect, if it can have one. -/
def evalUnlessTrivial (value : Term) : Drafting Unit :=
  if value.isTrivial then pure () else eval value

/-- Drafts a body of its own, which returns the operand that `value` drafts. The lines of the
enclosing body are set aside meanwhile; identities go on. -/
def nested (value : Drafting Term) : Drafting Body := do
  let outer := (← get).lines
  modify fun d => { d with lines := #[] }
  let t ← value
  ret t
  let body := (← get).lines.toList
  modify fun d => { d with lines := outer }
  return body

end Drafting

end CallByNeed.Flow
