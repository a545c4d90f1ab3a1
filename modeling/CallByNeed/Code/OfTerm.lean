import CallByNeed.Builtin
import CallByNeed.Code.Assembly

/-!
# Code for operands

The code of an operand leaves one word on the stack: a native integer or a value. A call finds its
callee first and then has three ways to go, one for each category of function:

* a special form gets the call as written;
* a closure gets a list of arguments, late ones as promises, with the caller's `...` flattened in;
* a builtin gets an array of names and an array of values, evaluated from left to right, into both
  of which the caller's `...` is spliced. The caller's `...` is kept in the work slot meanwhile.

How nested bodies become units is left to a parameter, so that this module recurses on operands
alone.
-/

namespace CallByNeed

/-- What makes a unit of a nested body, given the unit's name. -/
abbrev Nested := String → Flow.Body → EStateM CompileError Journal CodeUnit

namespace Assemble

open CallByNeed.Flow (Term Operands Callee Procedure Thunk)

/-! ## Nested units -/

/-- Runs a step that needs the journal only. -/
def journaled {α : Type} (step : EStateM CompileError Journal α) : Assemble α := fun a =>
  let journal := a.journal
  let a := { a with journal := #[] }
  match step journal with
  | .ok x journal => .ok x { a with journal }
  | .error e journal => .error e { a with journal }

/-- The unit of a default value. -/
def defaultUnit (nested : Nested) (name : String) (formal : Formal Thunk) :
    EStateM CompileError Journal (Formal CodeUnit) :=
  match formal.default with
  | none => return ⟨formal.name, none⟩
  | some thunk => do
    let unit ← nested s!"{name}$default_{formal.name.name}" thunk.body
    return ⟨formal.name, some unit⟩

/-- A function literal: a unit for each default, then one for the body. -/
def functionUnit (nested : Nested) (name : String) (p : Procedure Term) :
    EStateM CompileError Journal FunctionUnit := do
  let formals ← p.formals.mapM (defaultUnit nested name)
  let body ← nested name p.body
  return ⟨name, formals, body⟩

/-- Another nested unit can be numbered. -/
def checkRoom (count : Nat) : Assemble Unit := do
  if count ≥ maxConstants then throw (.tooManyConstants (← get).unit maxConstants)

/-- The index of the unit of a late argument, which is compiled when it is first met. -/
def thunkIndex (nested : Nested) (thunk : Thunk) : Assemble Nat := do
  let a ← get
  match a.thunks.index? thunk.node with
  | some index => return index
  | none =>
    checkRoom a.thunks.size
    let unit ← journaled (nested (nestedName a.unit "thunk" a.thunks.size) thunk.body)
    modifyGet fun a =>
      let (index, thunks) := a.thunks.insert thunk.node unit
      (index, { a with thunks })

/-- The index of a function literal, which is compiled when it is first met. -/
def closureIndex (nested : Nested) (node : Flow.NodeId) (p : Procedure Term) : Assemble Nat := do
  let a ← get
  match a.closures.index? node with
  | some index => return index
  | none =>
    checkRoom a.closures.size
    let name :=
      match p.name with
      | some name => name.name
      | none => nestedName a.unit "closure" a.closures.size
    let unit ← journaled (functionUnit nested name p)
    modifyGet fun a =>
      let (index, closures) := a.closures.insert node unit
      (index, { a with closures })

/-! ## Words on the stack -/

/-- Makes a value of the word that a step leaves. -/
def boxed (step : Assemble SlotKind) : Assemble Unit := do
  if (← step) = .int then emit .boxInt []

/-- Makes a native integer of the word that a step leaves. -/
def unboxed (step : Assemble SlotKind) : Assemble Unit := do
  if (← step) = .value then emit .unboxInt []

/-- Pushes what a slot holds. -/
def loadSlot (key : Flow.SlotKey) (operand : String) : Assemble SlotKind := do
  match (← get).slots.lookup? key with
  | none => defect (.readBeforeAssignment operand)
  | some slot =>
    match slot.kind with
    | .int => emit .loadInt [slot.index]
    | .value => emit .load [slot.index]
    return slot.kind

/-- Evaluates a late argument now: a bare name is looked up and forced, anything else has its unit
run in the environment of the frame. -/
def evaluateThunk (nested : Nested) (thunk : Thunk) : Assemble Unit := do
  match thunk.name? with
  | some name => loadVariable name
  | none =>
    let index ← thunkIndex nested thunk
    loadContext
    loadEnvironment
    emit .evalThunk [index]

/-! ## Arguments -/

/-- Refuses operands that cannot be passed: names and arguments of different numbers, `...` more
than once, or more arguments than can be counted. -/
def checkOperands (o : Operands Term) : Assemble Unit := do
  if o.names.length ≠ o.args.length then
    throw (.argumentNameMismatch o.site.call.text o.names.length o.args.length)
  if o.ellipsisCount > 1 then throw (.multipleEllipsis o.site.call.text)
  if o.args.length ≥ maxConstants then defect (.tooManyArguments o.site.call.text)

/-- Appends the argument on top of the stack to the list below it. -/
def addArgument (name : Option Symbol) : Assemble Unit := do
  match name with
  | some name =>
    let index ← nameIndex name
    emit .argAddNamed [index]
  | none => emit .argAdd []

/-- Keeps the caller's `...` in the work slot if the call splices it. -/
def storeEllipsis (o : Operands Term) : Assemble Unit := do
  if o.ellipsisIndex?.isSome then
    emit .loadEllipsis []
    storeWork

/-- Fills in the names of the arguments from a position on. -/
def nameArguments : List (Option Symbol) → Nat → Assemble Unit
  | [], _ => return ()
  | none :: rest, position => nameArguments rest (position + 1)
  | some name :: rest, position => do
    let index ← nameIndex name
    emit .nameAt [position, index]
    nameArguments rest (position + 1)

/-- Splices the caller's `...` into the array on top of the stack. -/
def splice (op : Opcode) (o : Operands Term) : Assemble Unit := do
  match o.ellipsisIndex? with
  | some position =>
    loadWork
    emit op [position]
  | none => pure ()

/-- Pushes the array of names. -/
def pushNames (o : Operands Term) : Assemble Unit := do
  emit .newNames [o.args.length]
  nameArguments o.names 0
  splice .spliceNames o

/-- Everything a builtin needs but the values: `...`, the context, the environment, the call and the
names. -/
def pushBuiltinFrame (o : Operands Term) : Assemble Unit := do
  storeEllipsis o
  loadContext
  loadEnvironment
  pushCall o.site
  pushNames o
  emit .newValues [o.args.length]

/-- Builds a call of a function that is on the stack: tests its category and continues with one of
the two given ways of passing arguments, or with the call as written. -/
def dispatch (o : Operands Term) (closureArguments builtinValues : Assemble Unit) :
    Assemble Unit := do
  let builtinCall ← freshMark
  let closureCall ← freshMark
  let finish ← freshMark
  emit .dup []
  emit .isBuiltin []
  jump .jumpIfNonZero builtinCall
  emit .dup []
  emit .isClosure []
  jump .jumpIfNonZero closureCall
  loadContext
  loadEnvironment
  pushCall o.site
  emit .applySpecial []
  jump .jump finish
  place closureCall
  emit .castClosure []
  loadContext
  pushCall o.site
  emit .newArgList []
  closureArguments
  emit .applyClosure []
  jump .jump finish
  place builtinCall
  emit .castBuiltin []
  pushBuiltinFrame o
  builtinValues
  splice .spliceValues o
  emit .applyBuiltin []
  place finish

/-- Finds the function of a name. -/
def findFunction (name : Symbol) : Assemble Unit := do
  let index ← nameIndex name
  emit .findFunction [index]

/-- Checks that the value on top of the stack can be called. -/
def checkFunction (o : Operands Term) : Assemble Unit := do
  let index ← callIndex o.site
  emit .checkFunction [index]

/-! ## Operands -/

mutual

/-- Emits code that leaves the operand on the stack, and says as what. -/
def term (nested : Nested) : Term → Assemble SlotKind
  | .int n => do
    pushInt n
    return .int
  | .literal e => do
    pushLiteral e
    return .value
  | .temp id => loadSlot (.temp id) (Flow.tempText id)
  | .local id name => loadSlot (.local id) (Flow.localText id name)
  | .env name => do
    loadVariable name
    return .value
  | .element vector index => do
    boxed (term nested vector)
    unboxed (term nested index)
    emit .elementAt []
    return .value
  | .length vector => do
    boxed (term nested vector)
    emit .length []
    return .int
  | .increment counter => do
    unboxed (term nested counter)
    pushInt 1
    emit .addInt []
    return .int
  | .atLeast left right => do
    boxed (term nested left)
    boxed (term nested right)
    emit .greaterEqual []
    return .value
  | .closure node procedure => do
    let index ← closureIndex nested node procedure
    loadEnvironment
    emit .makeClosure [index]
    return .value
  | .thunk deferred => do
    evaluateThunk nested deferred
    return .value
  | .ellipsis => throw .misplacedEllipsis
  | .primitive name ⟨site, args, names⟩ => do
    let o : Operands Term := ⟨site, args, names⟩
    checkOperands o
    if (Builtin.ofName? name.name).isNone then throw (.unknownPrimitive name.name)
    let index ← primitiveIndex name
    pushBuiltinFrame o
    builtinValues nested args 0
    splice .spliceValues o
    emit .callPrimitive [index]
    return .value
  | .call callee ⟨site, args, names⟩ => do
    let o : Operands Term := ⟨site, args, names⟩
    checkOperands o
    match callee with
    | .name name => findFunction name
    | .computed t => do
      boxed (term nested t)
      checkFunction o
    dispatch o (closureArguments nested args names) (builtinValues nested args 0)
    return .value

/-- Appends arguments to the list on top of the stack. -/
def closureArguments (nested : Nested) : List Term → List (Option Symbol) → Assemble Unit
  | t :: ts, name :: names => do
    match t with
    | .ellipsis =>
      emit .loadEllipsis []
      emit .argAddAll []
    | .thunk deferred =>
      match deferred.name? with
      | some bare =>
        let index ← nameIndex bare
        loadEnvironment
        emit .makeVariablePromise [index]
      | none =>
        let index ← thunkIndex nested deferred
        loadContext
        loadEnvironment
        emit .makeThunk [index]
      addArgument name
    | t =>
      boxed (term nested t)
      addArgument name
    closureArguments nested ts names
  | _, _ => return ()

/-- Evaluates arguments into the array on top of the stack, from a position on. The place of `...`
is left alone. -/
def builtinValues (nested : Nested) : List Term → Nat → Assemble Unit
  | [], _ => return ()
  | t :: ts, position => do
    match t with
    | .ellipsis => pure ()
    | .thunk deferred =>
      evaluateThunk nested deferred
      emit .valueAt [position]
    | t =>
      boxed (term nested t)
      emit .valueAt [position]
    builtinValues nested ts (position + 1)

end

end Assemble

end CallByNeed
