import CallByNeed.Code.Error
import CallByNeed.Flow.Basic

/-!
# Frame slots

Temporaries and local variables live in numbered slots of the frame, handed out in the order of
first use and never used again for anything else. A slot holds native integers only if every
assignment to it is one of an integer; what is assigned is planned before any slot is handed out.
-/

namespace CallByNeed

/-- What a slot holds. -/
inductive SlotKind where
  /-- A native integer. -/
  | int
  /-- A value. -/
  | value
deriving DecidableEq

/-- A slot of the frame. -/
structure Slot where
  index : Nat
  kind : SlotKind
deriving DecidableEq

/-- The number of slots that a one-byte operand can address. -/
def maxSlots : Nat := UInt8.size

/-- The slot of the execution context. -/
def contextSlot : Nat := 0

/-- The slot of the environment. -/
def environmentSlot : Nat := 1

/-- The slot where a call of a builtin keeps the caller's `...`. -/
def workSlot : Nat := 2

/-- The first slot for temporaries and local variables. -/
def firstLocalSlot : Nat := workSlot + 1

/-- The slots handed out, first one first, and the keys planned to hold a value at some time. -/
structure Slots where
  unit : String
  firstFree : Nat
  taken : List (Flow.SlotKey × Slot) := []
  boxed : List Flow.SlotKey := []

namespace Slots

/-- How many slots have been handed out. -/
def count (s : Slots) : Nat := s.taken.length

/-- The size of the frame, reserved slots included. -/
def frameSize (s : Slots) : Nat := s.firstFree + s.count

/-- Notes that something of a kind will be assigned to a key. -/
def plan (s : Slots) (key : Flow.SlotKey) (kind : SlotKind) : Slots :=
  match kind with
  | .int => s
  | .value => if s.boxed.contains key then s else { s with boxed := key :: s.boxed }

/-- The slot of a key that has one. -/
def lookup? (s : Slots) (key : Flow.SlotKey) : Option Slot := s.taken.lookup key

end Slots

/-- A step on the slots, which may fail. -/
abbrev Allotting := EStateM CompileError Slots

namespace Slots

/-- Hands out the next slot. When none is left the slots stay as they are. -/
def allot (key : Flow.SlotKey) (kind : SlotKind) : Allotting Slot := fun s =>
  let slot : Slot := ⟨s.frameSize, if s.boxed.contains key then .value else kind⟩
  if slot.index < maxSlots then .ok slot { s with taken := s.taken ++ [(key, slot)] }
  else .error (.tooManySlots s.unit maxSlots) s

/-- The slot for an assignment of a kind to a key. A new slot is kept for values if any are planned
for its key. -/
def slotFor (key : Flow.SlotKey) (kind : SlotKind) : Allotting Slot := do
  let s ← get
  match s.lookup? key with
  | some slot =>
    if slot.kind = .int ∧ kind = .value then throw (.defect (.slotReboxed slot.index s.unit))
    return slot
  | none => allot key kind

end Slots

end CallByNeed
