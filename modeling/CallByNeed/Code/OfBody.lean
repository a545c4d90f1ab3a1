import CallByNeed.Code.OfTerm
import CallByNeed.Flow.Depth
import CallByNeed.Flow.Graph

/-!
# Code for bodies

A body becomes a unit block by block, in the order of its graph. The kinds of all slots are planned
before anything is emitted. Jumps are completed at the end.

With the fast path for integers, a counter that is increased in place has an instruction of its own,
and a branch on `a >= b` between two integer slots compares them natively.
-/

namespace CallByNeed

namespace Assemble

open CallByNeed.Flow (Term Target Label Block Graph)

/-! ## Slots -/

/-- What a slot assigned from an operand would hold. -/
def kindOf (options : CompilerOptions) (t : Term) : SlotKind :=
  if options.integerFastPath then
    match t with
    | .int _ | .length _ | .increment _ => .int
    | _ => .value
  else .value

/-- Plans the slot of an assignment. -/
def planStatement (options : CompilerOptions) (s : Slots) : Flow.Statement Term → Slots
  | .assign target value =>
    match target.slotKey? with
    | some key => s.plan key (kindOf options value)
    | none => s
  | _ => s

/-- Plans the slots of all assignments of a graph. -/
def planSlots (options : CompilerOptions) (s : Slots) (g : Graph) : Slots :=
  g.foldl (fun s b => b.statements.foldl (planStatement options) s) s

/-- The integer slot of an operand, if it has one. -/
def intSlot? (slots : Slots) (t : Term) : Option Slot := do
  let key ← t.slotKey?
  let slot ← slots.lookup? key
  if slot.kind = .int then some slot else none

/-- The integer slot that an assignment increases by one in place. -/
def counterInPlace? (options : CompilerOptions) (slots : Slots) (key : Flow.SlotKey) (t : Term) :
    Option Slot :=
  match t with
  | .increment counter =>
    if options.integerFastPath ∧ counter.slotKey? = some key then intSlot? slots counter else none
  | _ => none

/-- The two integer slots that a condition compares. -/
def nativeComparison? (options : CompilerOptions) (slots : Slots) (t : Term) :
    Option (Slot × Slot) :=
  match t with
  | .atLeast left right =>
    if options.integerFastPath then do
      let left ← intSlot? slots left
      let right ← intSlot? slots right
      some (left, right)
    else none
  | _ => none

/-! ## Statements -/

/-- An assignment to a slot. -/
def assignSlot (nested : Nested) (key : Flow.SlotKey) (value : Term) : Assemble Unit := do
  let a ← get
  match counterInPlace? a.options a.slots key value with
  | some slot => emit .incLocal [slot.index]
  | none =>
    let slot ← slotFor key (kindOf a.options value)
    match slot.kind with
    | .int =>
      unboxed (term nested value)
      emit .storeInt [slot.index]
    | .value =>
      boxed (term nested value)
      emit .store [slot.index]

/-- An assignment. -/
def assign (nested : Nested) (target : Target) (value : Term) : Assemble Unit := do
  match target with
  | .temp id => assignSlot nested (.temp id) value
  | .local id _ => assignSlot nested (.local id) value
  | .env name =>
    boxed (term nested value)
    let index ← nameIndex name
    emit .setVariable [index]

/-- A branch: jumps away if the condition fails, and then to the other target. -/
def branch (nested : Nested) (condition : Term) (yes no : Label) : Assemble Unit := do
  let yes ← resolve yes
  let no ← resolve no
  let a ← get
  match nativeComparison? a.options a.slots condition with
  | some (left, right) =>
    emit .loadInt [left.index]
    emit .loadInt [right.index]
    jump .jumpIfIntLess no
  | none =>
    boxed (term nested condition)
    emit .truthy []
    jump .jumpIfZero no
  jump .jump yes

/-- A statement. -/
def statement (nested : Nested) : Flow.Statement Term → Assemble Unit
  | .assign target value => assign nested target value
  | .eval value => do
    let _ ← term nested value
    emit .pop []
  | .goto l => do
    let mark ← resolve l
    jump .jump mark
  | .branch condition yes no => branch nested condition yes no
  | .ret value => do
    boxed (term nested value)
    emit .ret []

/-- Statements in order. -/
def statements (nested : Nested) : List (Flow.Statement Term) → Assemble Unit
  | [] => return ()
  | s :: rest => do
    statement nested s
    statements nested rest

/-! ## Blocks -/

/-- Binds the labels of a block. -/
def placeLabels : List Label → Assemble Unit
  | [] => return ()
  | l :: rest => do
    let mark ← resolve l
    place mark
    placeLabels rest

/-- A block. Control must not run off its end. -/
def block (nested : Nested) (b : Block) : Assemble Unit := do
  placeLabels b.labels
  statements nested b.statements
  let a ← get
  if !a.emitter.endsInTransfer then defect (.blockFallsThrough a.unit)

/-- Blocks in order. -/
def blocks (nested : Nested) : Graph → Assemble Unit
  | [] => return ()
  | b :: rest => do
    block nested b
    blocks nested rest

/-! ## Units -/

/-- Adds a message of a level of detail that only debugging asks for. -/
def debug (message : String) : Assemble Unit :=
  modify fun a => { a with journal := a.journal.push ⟨.debug, message⟩ }

/-- Reports statements that control cannot reach. -/
def reportUnreachable : List (Flow.Statement Term) → Assemble Unit
  | [] => return ()
  | s :: rest => do
    debug s!"dropping unreachable statement `{s.text}`"
    reportUnreachable rest

/-- What is reported of a finished unit. -/
def summary (u : CodeUnit) : String :=
  s!"compiled `{u.name}`: {u.code.size} bytes, {u.slots} slots, {u.constants.size} constants, "
    ++ s!"{u.thunks.length} thunks, {u.closures.length} closures"

/-- Completes the jumps and takes the unit. A pending jump was emitted whole, so that its operand
never lies past the end of the code. -/
def finish : Assemble CodeUnit := do
  let a ← get
  match a.jumps.apply a.emitter.code with
  | (code, none) =>
    let unit : CodeUnit :=
      { name := a.unit, code, constants := a.pool.entries, slots := a.slots.frameSize
        thunks := a.thunks.units.toList, closures := a.closures.units.toList }
    debug (summary unit)
    return unit
  | (_, some (.error e)) => throw e
  | (code, some .overrun) => defect (.noJumpAt code.size)

/-- Assembles a body. -/
def body (nested : Nested) (b : Flow.Body) : Assemble CodeUnit := do
  let g := Graph.ofBody b
  reportUnreachable (Graph.unreachable b)
  modify fun a => { a with slots := planSlots a.options a.slots g }
  blocks nested g
  finish

end Assemble

/-! ## Compiling -/

/-- A step of compiling, which may fail. -/
abbrev Compiling := EStateM CompileError Journal

namespace Compiling

/-- The unit of a body, given how nested bodies become units. -/
def unitWith (options : CompilerOptions) (nested : Nested) (name : String) (b : Flow.Body) :
    Compiling CodeUnit := fun journal =>
  match Assemble.body nested b (.start name options journal) with
  | .ok unit a => .ok unit a.journal
  | .error e a => .error e a.journal

/-- The unit of a body in which fewer than `depth` bodies nest. -/
def unitWithin (options : CompilerOptions) : Nat → String → Flow.Body → Compiling CodeUnit
  | 0, name, _ => return ⟨name, #[], #[], 0, [], []⟩
  | depth + 1, name, b => unitWith options (unitWithin options depth) name b

/-- The unit of a body. -/
def unit (options : CompilerOptions) (name : String) (b : Flow.Body) : Compiling CodeUnit :=
  unitWithin options (b.depth + 1) name b

/-- The unit of a function literal. -/
def function (options : CompilerOptions) (name : String) (p : Flow.Procedure Flow.Term) :
    Compiling FunctionUnit :=
  Assemble.functionUnit (unitWithin options p.depth) name p

end Compiling

end CallByNeed
