import CallByNeed.Code.Slots
import CallByNeed.Eval.Store

/-!
# The state of a stack machine

A machine that executes a unit has a position in the code, a stack and the slots of its frame, all
made of words. A word is a value, or something that only code handles: a native integer, an
environment, a call as written, arrays of names and values, a list of arguments under construction.
The operations here are the parts that instructions are made of.
-/

namespace CallByNeed

/-- An entry of the stack or of a slot. -/
inductive Word where
  /-- A slot that nothing was stored in. -/
  | empty
  | int (n : Int32)
  | value (v : Value)
  /-- The execution context. There is only one, so that it carries nothing. -/
  | context
  | env (e : EnvId)
  | call (c : Call)
  | names (ns : Array (Option Symbol))
  | values (vs : Array Value)
  | args (as : Array (Arg Value))

namespace Word

/-- The kind of a word in messages. -/
def kind : Word → String
  | .empty => "empty"
  | .int _ => "int"
  | .value _ => "value"
  | .context => "context"
  | .env _ => "environment"
  | .call _ => "call"
  | .names _ => "names"
  | .values _ => "values"
  | .args _ => "argument list"

/-- The text of a word in traces. -/
def text : Word → String
  | .empty => "_"
  | .int n => "#" ++ Int32.text n
  | .value v => v.text
  | .context => "ctx"
  | .env _ => "env"
  | .call c => "call " ++ c.text
  | .names ns => s!"names({ns.size})"
  | .values vs => s!"values({vs.size})"
  | .args as => s!"args({as.size})"

/-- A truth value as a native integer. -/
def ofBool (b : Bool) : Word := .int (if b then 1 else 0)

end Word

/-- A machine. The top of the stack comes first. -/
structure Machine where
  position : Nat := 0
  stack : List Word := []
  slots : Array Word

/-- A step of a machine. -/
abbrev Stepping := StateT Machine Eval

namespace Machine

/-- A machine at the start of a unit: the context and the environment are in their slots. -/
def start (unit : CodeUnit) (env : EnvId) : Machine :=
  { slots := ((Array.replicate (max unit.slots firstLocalSlot) Word.empty).setIfInBounds
      contextSlot .context).setIfInBounds environmentSlot (.env env) }

/-- Stops with an error in the code. -/
def defect {α : Type} (fault : InternalFault) : Stepping α := Eval.fail (.internal fault)

/-! ## The stack -/

/-- Pushes a word. -/
def push (w : Word) : Stepping Unit :=
  modify fun m => { m with stack := w :: m.stack }

/-- Pushes a value. -/
def pushValue (v : Value) : Stepping Unit := push (.value v)

/-- Pops a word. -/
def pop : Stepping Word := fun m =>
  match m with
  | ⟨position, w :: stack, slots⟩ => pure (w, ⟨position, stack, slots⟩)
  | ⟨_, [], _⟩ => Eval.fail (.internal .stackUnderflow)

/-- The word on top. -/
def top : Stepping Word := do
  let w ← pop
  push w
  return w

/-- Pops a value. -/
def popValue : Stepping Value := do
  match ← pop with
  | .value v => return v
  | w => defect (.wrongWord "value" w.kind)

/-- Pops a native integer. -/
def popInt : Stepping Int32 := do
  match ← pop with
  | .int n => return n
  | w => defect (.wrongWord "int" w.kind)

/-- Pops the context. -/
def popContext : Stepping Unit := do
  match ← pop with
  | .context => return ()
  | w => defect (.wrongWord "context" w.kind)

/-- Pops an environment. -/
def popEnv : Stepping EnvId := do
  match ← pop with
  | .env e => return e
  | w => defect (.wrongWord "environment" w.kind)

/-- Pops a call. -/
def popCall : Stepping Call := do
  match ← pop with
  | .call c => return c
  | w => defect (.wrongWord "call" w.kind)

/-- Pops an array of names. -/
def popNames : Stepping (Array (Option Symbol)) := do
  match ← pop with
  | .names ns => return ns
  | w => defect (.wrongWord "names" w.kind)

/-- Pops an array of values. -/
def popValues : Stepping (Array Value) := do
  match ← pop with
  | .values vs => return vs
  | w => defect (.wrongWord "values" w.kind)

/-- Pops a list of arguments. -/
def popArgs : Stepping (Array (Arg Value)) := do
  match ← pop with
  | .args as => return as
  | w => defect (.wrongWord "argument list" w.kind)

/-- Pops the arguments bound to `...`. -/
def popDots : Stepping ArgList := do
  match ← popValue with
  | .dots args => return args
  | v => Eval.fail (.argumentType "'...' used in an incorrect context" "..." v.typeName)

/-! ## Slots -/

/-- What a slot holds. -/
def slot (index : Nat) : Stepping Word := do
  match (← get).slots[index]? with
  | some w => return w
  | none => defect (.slotRange index)

/-- Stores a word in a slot. -/
def setSlot (index : Nat) (w : Word) : Stepping Unit := do
  let _ ← slot index
  modify fun m => { m with slots := m.slots.setIfInBounds index w }

/-! ## Operands -/

/-- An operand of the current instruction, by its width and its place behind the opcode. -/
def operand (unit : CodeUnit) (width : Nat) (skip : Nat := 0) : Stepping Nat := do
  match unit.code.operand? (← get).position width skip with
  | some n => return n
  | none => throw .abort

/-- A constant. -/
def constant (unit : CodeUnit) (index : Nat) : Stepping Constant :=
  match unit.constants[index]? with
  | some c => pure c
  | none => defect (.constantRange index unit.name)

/-- The name that an operand refers to. -/
def nameOperand (unit : CodeUnit) (skip : Nat := 0) : Stepping Symbol := do
  match ← constant unit (← operand unit 2 skip) with
  | .name s | .primitive s => return s
  | c => defect (.notAName c.text)

/-- The call that an operand refers to. -/
def callOperand (unit : CodeUnit) : Stepping Call := do
  match ← constant unit (← operand unit 2) with
  | .call c => return c
  | c => defect (.notACall c.text)

/-- The unit of a late argument that an operand refers to. -/
def thunkOperand (unit : CodeUnit) : Stepping CodeUnit := do
  let index ← operand unit 2
  match unit.thunks[index]? with
  | some u => return u
  | none => defect (.tableRange "thunk" index unit.name)

/-- The function literal that an operand refers to. -/
def closureOperand (unit : CodeUnit) : Stepping FunctionUnit := do
  let index ← operand unit 2
  match unit.closures[index]? with
  | some u => return u
  | none => defect (.tableRange "closure" index unit.name)

/-! ## Traces -/

/-- A text followed by blanks up to a width. -/
def padded (width : Nat) (s : String) : String :=
  s ++ String.ofList (List.replicate (width - s.length) ' ')

/-- The last entries of a stack, at most four, the top last. -/
def stackText (stack : List Word) : String :=
  let shown := (stack.take 4).reverse.map Word.text
  let hidden := stack.length - 4
  "[" ++ ", ".intercalate (if hidden = 0 then shown else s!"..{hidden}" :: shown) ++ "]"

/-- The line that traces an instruction before it is executed; `none` if an operand runs off the end
of the code. -/
def traceLine? (unit : CodeUnit) (op : Opcode) (m : Machine) : Option String := do
  let operands ← unit.code.readOperands? op.widths (m.position + 1)
  let shown := " ".intercalate (operands.map toString)
  let columns := s!"{fourDigits m.position} {padded 20 op.name} {padded 12 shown}"
  some s!"{unit.name} {columns} | {stackText m.stack}"

end Machine

end CallByNeed
