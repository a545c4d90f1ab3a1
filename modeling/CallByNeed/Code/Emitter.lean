import CallByNeed.Code.Bytes

/-!
# Emitting instructions

The instructions of a unit as they are appended, with a note of the last two.
-/

namespace CallByNeed

/-- An instruction that was appended: its kind and its offset. Before the first one there is no
kind. -/
structure Emitted where
  op : Option Opcode := none
  position : Nat := 0

/-- The code so far. -/
structure Emitter where
  code : Bytes := #[]
  last : Emitted := {}
  previous : Emitted := {}

namespace Emitter

/-- Where the next instruction goes. -/
def position (e : Emitter) : Nat := e.code.size

/-- Appends an instruction. -/
def append (e : Emitter) (i : Instruction) : Emitter :=
  let position := e.position
  { code := e.code.append i, last := ⟨some i.op, position⟩, previous := e.last }

/-- Control cannot run off the end of what was emitted. -/
def endsInTransfer (e : Emitter) : Bool :=
  e.last.op = some .ret || e.last.op = some .jump

end Emitter

end CallByNeed
