import CallByNeed.Eval.Interpreter
import CallByNeed.Eval.Machine

/-!
# Executing units

One instruction at a time: what it takes off the stack, what it puts there, and where execution goes
on. Instructions that call functions or force promises leave that to the host.
-/

namespace CallByNeed

namespace Machine

/-- Where execution goes on. -/
inductive Transfer where
  /-- At the instruction behind this one. -/
  | next
  /-- At an offset of the code. -/
  | jump (target : Nat)
  /-- Nowhere: the unit returns a value. -/
  | ret (v : Value)

/-! ## Calls -/

/-- Stack: callee, context, environment, call. -/
def applySpecial (host : Host) : Stepping Value := do
  let call ← popCall
  let env ← popEnv
  popContext
  match ← popValue with
  | .special s => s.invoke host env call
  | v => defect (.wrongCategory "special" call.text v.typeName)

/-- Stack: callee, context, call, arguments. -/
def applyClosure (limit : Nat) (host : Host) : Stepping Value := do
  let args ← popArgs
  let call ← popCall
  popContext
  match ← popValue with
  | .closure unit env => CallByNeed.applyClosure limit host unit env call args.toList
  | v => defect (.wrongCategory "closure" call.text v.typeName)

/-- Stack: call, names, values, above the context and an environment, which builtins ignore. -/
def popBuiltinCall : Stepping (Call × List (Option Symbol) × List Value) := do
  let values ← popValues
  let names ← popNames
  let call ← popCall
  let _ ← popEnv
  popContext
  return (call, names.toList, values.toList)

/-- The result of a builtin. -/
def invoke (b : Builtin) (call : Call) (names : List (Option Symbol)) (values : List Value) :
    Stepping Value :=
  match b.invoke call names values with
  | .ok v => pure v
  | .error h => throw h

/-- Stack: callee, context, environment, call, names, values. -/
def applyBuiltin : Stepping Value := do
  let (call, names, values) ← popBuiltinCall
  match ← popValue with
  | .builtin b => invoke b call names values
  | v => defect (.wrongCategory "builtin" call.text v.typeName)

/-- Stack: context, environment, call, names, values. -/
def callPrimitive (name : Symbol) : Stepping Value :=
  match Builtin.ofName? name.name with
  | none => defect (.unknownPrimitive name.name)
  | some b => do
    let (call, names, values) ← popBuiltinCall
    invoke b call names values

/-- The array with the entry at a position replaced by several entries. -/
def spliced {α : Type} (as : Array α) (position : Nat) (entries : List α) : Array α :=
  as.extract 0 position ++ entries.toArray ++ as.extract (position + 1) as.size

/-! ## Instructions -/

/-- Goes to the operand of a jump if a condition holds. -/
def jumpIf (unit : CodeUnit) (condition : Bool) : Stepping Transfer := do
  if condition then return .jump (← operand unit 2) else return .next

/-- Executes an instruction. Operands are read only when they are needed. -/
def step (limit : Nat) (host : Host) (unit : CodeUnit) (env : EnvId) :
    Opcode → Stepping Transfer
  | .constant => do
    match ← constant unit (← operand unit 2) with
    | .literal e => pushValue (.ofExpr e)
    | .call c => push (.call c)
    | c => defect (.notPushable c.text)
    return .next
  | .int => do
    push (.int (intOfOperand (← operand unit 4)))
    return .next
  | .load => do
    let index ← operand unit 1
    match ← slot index with
    | .empty => defect (.unassignedSlot index)
    | w => push w
    return .next
  | .store => do
    let w ← pop
    setSlot (← operand unit 1) w
    return .next
  | .loadInt => do
    let index ← operand unit 1
    match ← slot index with
    | .int n => push (.int n)
    | .empty => defect (.unassignedSlot index)
    | w => defect (.wrongWord "int" w.kind)
    return .next
  | .storeInt => do
    let n ← popInt
    setSlot (← operand unit 1) (.int n)
    return .next
  | .incLocal => do
    let index ← operand unit 1
    match ← slot index with
    | .int n =>
      match Value.int32? (n.toInt + 1) with
      | some n => setSlot index (.int n)
      | none => Eval.fail (.primitive "for" .counterOverflow)
    | w => defect (.wrongWord "int" w.kind)
    return .next
  | .dup => do
    push (← top)
    return .next
  | .pop => do
    let _ ← pop
    return .next
  | .jump => return .jump (← operand unit 2)
  | .jumpIfZero => do
    let n ← popInt
    jumpIf unit (n = 0)
  | .jumpIfNonZero => do
    let n ← popInt
    jumpIf unit (n ≠ 0)
  | .jumpIfIntLess => do
    let b ← popInt
    let a ← popInt
    jumpIf unit (a < b)
  | .findVariable => do
    let name ← nameOperand unit
    pushValue (← Eval.findVariable env name)
    return .next
  | .findFunction => do
    let name ← nameOperand unit
    pushValue (← host.findFunction env name)
    return .next
  | .setVariable => do
    let name ← nameOperand unit
    Eval.setVariable env name (← popValue)
    return .next
  | .force => do
    pushValue (← host.force (← popValue))
    return .next
  | .checkFunction => do
    let call ← callOperand unit
    let v ← host.force (← popValue)
    if v.category?.isSome then pushValue v else Eval.fail (.notCallable call.text)
    return .next
  | .isBuiltin => do
    let v ← popValue
    push (.ofBool (v.category? = some .builtin))
    return .next
  | .isClosure => do
    let v ← popValue
    push (.ofBool (v.category? = some .closure))
    return .next
  | .castBuiltin => do
    match ← top with
    | .value (.builtin _) => return .next
    | w => defect (.wrongWord "builtin" w.kind)
  | .castClosure => do
    match ← top with
    | .value (.closure ..) => return .next
    | w => defect (.wrongWord "closure" w.kind)
  | .applySpecial => do
    pushValue (← applySpecial host)
    return .next
  | .newArgList => do
    push (.args #[])
    return .next
  | .argAdd => do
    let v ← popValue
    let args ← popArgs
    push (.args (args.push ⟨none, v⟩))
    return .next
  | .argAddNamed => do
    let name ← nameOperand unit
    let v ← popValue
    let args ← popArgs
    push (.args (args.push ⟨some name, v⟩))
    return .next
  | .argAddAll => do
    let dots ← popDots
    let args ← popArgs
    push (.args (args ++ dots.toArray))
    return .next
  | .applyClosure => do
    pushValue (← applyClosure limit host)
    return .next
  | .makeVariablePromise => do
    let name ← nameOperand unit
    let env ← popEnv
    pushValue (← Eval.promise (.variable name env))
    return .next
  | .makeThunk => do
    let thunk ← thunkOperand unit
    let env ← popEnv
    popContext
    pushValue (← Eval.promise (.compiled thunk env))
    return .next
  | .evalThunk => do
    let thunk ← thunkOperand unit
    let env ← popEnv
    popContext
    pushValue (← host.executeNested limit thunk env)
    return .next
  | .loadEllipsis => do
    pushValue (.dots (← Eval.findDots env))
    return .next
  | .newNames => do
    push (.names (Array.replicate (← operand unit 2) none))
    return .next
  | .nameAt => do
    let position ← operand unit 2
    let name ← nameOperand unit 2
    let names ← popNames
    if position < names.size then push (.names (names.setIfInBounds position (some name)))
    else defect (.tableRange "name position" position "names")
    return .next
  | .spliceNames => do
    let position ← operand unit 2
    let dots ← popDots
    let names ← popNames
    if position < names.size then push (.names (spliced names position (dots.map Arg.name)))
    else defect (.spliceRange "names" position names.size)
    return .next
  | .newValues => do
    push (.values (Array.replicate (← operand unit 2) .null))
    return .next
  | .valueAt => do
    let position ← operand unit 2
    let v ← popValue
    let values ← popValues
    if position < values.size then push (.values (values.setIfInBounds position v))
    else defect (.tableRange "value position" position "values")
    return .next
  | .spliceValues => do
    let position ← operand unit 2
    let dots ← popDots
    let values ← popValues
    if position < values.size then do
      let entries ← dots.mapM fun d => (host.force d.value : Eval Value)
      push (.values (spliced values position entries))
    else defect (.spliceRange "values" position values.size)
    return .next
  | .applyBuiltin => do
    pushValue (← applyBuiltin)
    return .next
  | .callPrimitive => do
    let name ← nameOperand unit
    pushValue (← callPrimitive name)
    return .next
  | .elementAt => do
    let index ← popInt
    let v ← popValue
    pushValue (← Eval.ofExcept (v.elementAt index))
    return .next
  | .length => do
    let v ← popValue
    push (.int (← Eval.ofExcept (Builtin.lengthOf v)))
    return .next
  | .addInt => do
    let b ← popInt
    let a ← popInt
    match Value.int32? (a.toInt + b.toInt) with
    | some n => push (.int n)
    | none => Eval.fail (.primitive "for" .counterOverflow)
    return .next
  | .greaterEqual => do
    let b ← popValue
    -- What is wrong with the right operand comes before anything about the left one.
    let _ ← Eval.ofExcept (b.asDouble ">=")
    let a ← popValue
    pushValue (.logical (← Eval.ofExcept (a.atLeast b)))
    return .next
  | .makeClosure => do
    let f ← closureOperand unit
    let env ← popEnv
    pushValue (.closure f env)
    return .next
  | .truthy => do
    let v ← popValue
    push (.ofBool (← Eval.ofExcept v.truthy))
    return .next
  | .boxInt => do
    pushValue (.int (← popInt))
    return .next
  | .unboxInt => do
    let v ← popValue
    push (.int (← Eval.ofExcept (v.asInt "integer operand")))
    return .next
  | .ret => return .ret (← popValue)

/-! ## Runs -/

/-- Logs an instruction before it is executed. -/
def trace (unit : CodeUnit) (op : Opcode) (m : Machine) : Eval Unit :=
  match traceLine? unit op m with
  | some line => modify fun s => s.log .trace line
  | none => throw .abort

/-- Executes instructions until the unit returns, at most `steps` of them. -/
def run (options : RuntimeOptions) (host : Host) (unit : CodeUnit) (env : EnvId) :
    Nat → Machine → Eval Value
  | 0, _ => throw .exhausted
  | steps + 1, m => do
    match unit.code[m.position]? with
    | none => Eval.fail (.internal (.ranPast unit.name))
    | some byte =>
      match Opcode.ofByte? byte with
      | none => Eval.fail (.internal (.unknownOpcode byte.toNat))
      | some op => do
        if options.trace then trace unit op m
        let (transfer, m) ← step options.maxDepth host unit env op m
        match transfer with
        | .next => run options host unit env steps { m with position := m.position + op.size }
        | .jump target => run options host unit env steps { m with position := target }
        | .ret v => return v

end Machine

end CallByNeed
