import CallByNeed.Code.Emitter
import CallByNeed.Code.Jumps
import CallByNeed.Code.Pool
import CallByNeed.Code.Slots
import CallByNeed.Code.Unit
import CallByNeed.Config
import CallByNeed.Journal

/-!
# Assembling a unit

The state that everything emitted for one body shares, and the steps that change it: emitting
instructions, entering constants, placing and aiming jumps. The state is dropped when the unit is
finished, except for the journal.
-/

namespace CallByNeed

/-- A unit being assembled. -/
structure Assembly where
  unit : String
  options : CompilerOptions
  emitter : Emitter := {}
  pool : Pool
  slots : Slots
  jumps : Jumps := {}
  thunks : Registry CodeUnit := {}
  closures : Registry FunctionUnit := {}
  journal : Journal

/-- The assembly of a unit before anything is emitted. -/
def Assembly.start (unit : String) (options : CompilerOptions) (journal : Journal) : Assembly :=
  { unit, options, pool := { unit }, slots := { unit, firstFree := firstLocalSlot }, journal }

/-- A step of assembling, which may fail. The state is kept on failure, for its journal. -/
abbrev Assemble := EStateM CompileError Assembly

namespace Assemble

/-! ## Instructions -/

/-- Emits an instruction. -/
def emit (op : Opcode) (operands : List Nat) : Assemble Unit :=
  modify fun a => { a with emitter := a.emitter.append ⟨op, operands⟩ }

/-- Reports a defect. -/
def defect {α : Type} (d : Defect) : Assemble α := throw (.defect d)

/-! ## Tables -/

/-- A step on the pool, which is not shared meanwhile. -/
def onPool {α : Type} (step : Entering α) : Assemble α :=
  fun ⟨unit, options, emitter, pool, slots, jumps, thunks, closures, journal⟩ =>
    match step.run pool with
    | .ok x pool => .ok x ⟨unit, options, emitter, pool, slots, jumps, thunks, closures, journal⟩
    | .error e pool =>
      .error e ⟨unit, options, emitter, pool, slots, jumps, thunks, closures, journal⟩

/-- A step on the slots. -/
def onSlots {α : Type} (step : Allotting α) : Assemble α := fun a =>
  match step.run a.slots with
  | .ok x slots => .ok x { a with slots }
  | .error e slots => .error e { a with slots }

/-- The index of a name. -/
def nameIndex (s : Symbol) : Assemble Nat := onPool (Pool.name s)

/-- The index of a call. -/
def callIndex (c : Flow.CallSite) : Assemble Nat := onPool (Pool.call c)

/-- The index of a builtin. -/
def primitiveIndex (s : Symbol) : Assemble Nat := onPool (Pool.primitive s)

/-- The slot for an assignment. -/
def slotFor (key : Flow.SlotKey) (kind : SlotKind) : Assemble Slot :=
  onSlots (Slots.slotFor key kind)

/-! ## Jumps -/

/-- The target of a flow label. -/
def resolve (l : Flow.Label) : Assemble Mark :=
  modifyGet fun a =>
    let (mark, jumps) := a.jumps.resolve l
    (mark, { a with jumps })

/-- A target without a flow label. -/
def freshMark : Assemble Mark :=
  modifyGet fun a =>
    let (mark, jumps) := a.jumps.fresh
    (mark, { a with jumps })

/-- Emits a jump to a target. -/
def jump (op : Opcode) (m : Mark) : Assemble Unit := do
  let position := (← get).emitter.position
  emit op [unpatchedJump]
  modify fun a => { a with jumps := a.jumps.record position m }

/-- Binds a target to the next instruction. -/
def place (m : Mark) : Assemble Unit := do
  let a ← get
  match a.jumps.bind m a.emitter.position with
  | .ok jumps => set { a with jumps }
  | .error e => throw e

/-! ## Common instructions -/

/-- Pushes the execution context. -/
def loadContext : Assemble Unit := emit .load [contextSlot]

/-- Pushes the environment. -/
def loadEnvironment : Assemble Unit := emit .load [environmentSlot]

/-- Pushes the argument list kept in the work slot. -/
def loadWork : Assemble Unit := emit .load [workSlot]

/-- Keeps an argument list in the work slot. -/
def storeWork : Assemble Unit := emit .store [workSlot]

/-- Pushes a literal. -/
def pushLiteral (e : Expr) : Assemble Unit := do
  let index ← onPool (Pool.literal e)
  emit .constant [index]

/-- Pushes a native integer. -/
def pushInt (n : Int32) : Assemble Unit := emit .int [intOperand n]

/-- Pushes a call as written. -/
def pushCall (c : Flow.CallSite) : Assemble Unit := do
  let index ← callIndex c
  emit .constant [index]

/-- Looks up a variable and forces it. -/
def loadVariable (s : Symbol) : Assemble Unit := do
  let index ← nameIndex s
  emit .findVariable [index]
  emit .force []

end Assemble

end CallByNeed
