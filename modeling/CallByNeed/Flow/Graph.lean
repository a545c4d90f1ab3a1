import CallByNeed.Flow.Text

/-!
# The graph of blocks

A body as basic blocks in source order. Labels begin a block, transfers of control end one. The
first block is the entry and has no label. A block that runs into a label goes there explicitly, a
block that runs off the end of the body returns `NULL`, and statements behind a transfer that no
label makes reachable are dropped.
-/

namespace CallByNeed.Flow

/-- A block: its labels, and statements of which the last one transfers control. -/
structure Block where
  labels : List Label
  statements : List (Statement Term)

namespace Block

/-- The transfer that ends the block. -/
def terminator? (b : Block) : Option (Statement Term) :=
  b.statements.getLast?.filter Statement.isTransfer

/-- Where control may go from the block. -/
def successors (b : Block) : List Label :=
  match b.terminator? with
  | some s => s.successors
  | none => []

end Block

/-- The blocks of a body, the entry first. -/
abbrev Graph := List Block

namespace Graph

/-- A block under construction. Its parts are kept last one first. -/
structure Open where
  labels : List Label
  statements : List (Statement Term)

/-- The block that an open block becomes when a last statement is added. -/
def Open.close (o : Open) (last : Statement Term) : Block :=
  ⟨o.labels.reverse, (last :: o.statements).reverse⟩

/-- The graph under construction: finished blocks and dropped statements, last one first; the block
being filled, if control can reach this point; and whether the last line was a label, so that one
more label joins it. -/
structure Building where
  blocks : List Block
  dropped : List (Statement Term)
  current : Option Open
  atLabel : Bool

/-- The entry block is open and empty. -/
def Building.start : Building := ⟨[], [], some ⟨[], []⟩, false⟩

/-- Takes one line. The first of several labels in a row ends the open block with a jump to it. -/
def Building.line (g : Building) : Line Term → Building
  | .label l =>
    match g.current with
    | some o =>
      if g.atLabel then { g with current := some { o with labels := l :: o.labels } }
      else ⟨o.close (.goto l) :: g.blocks, g.dropped, some ⟨[l], []⟩, true⟩
    | none => { g with current := some ⟨[l], []⟩, atLabel := true }
  | .statement s =>
    match g.current with
    | some o =>
      if s.isTransfer then ⟨o.close s :: g.blocks, g.dropped, none, false⟩
      else { g with current := some { o with statements := s :: o.statements }, atLabel := false }
    | none => { g with dropped := s :: g.dropped, atLabel := false }

/-- Ends an open block by returning `NULL`. -/
def Building.finish (g : Building) : Graph :=
  match g.current with
  | some o => (o.close (.ret .null) :: g.blocks).reverse
  | none => g.blocks.reverse

/-- All lines of a body, taken in order. -/
def Building.ofBody (b : Body) : Building := b.foldl Building.line .start

/-- The graph of a body. -/
def ofBody (b : Body) : Graph := (Building.ofBody b).finish

/-- The statements of a body that its graph leaves out, in order. -/
def unreachable (b : Body) : List (Statement Term) := (Building.ofBody b).dropped.reverse

/-- The position of the block that a label is bound to. -/
def blockOf? (g : Graph) (l : Label) : Option Nat :=
  g.findIdx? fun b => b.labels.contains l

/-- The lines of a block. -/
def blockLines (index : Nat) (b : Block) : List String :=
  let labels :=
    if b.labels.isEmpty then "" else " [" ++ ", ".intercalate (b.labels.map Label.text) ++ "]"
  (s!"B{index}" ++ labels ++ ":") :: b.statements.map fun s => "  " ++ s.text

/-- The lines of a graph. -/
def lines (g : Graph) : List String :=
  (g.mapIdx blockLines).flatten

end Graph

end CallByNeed.Flow
