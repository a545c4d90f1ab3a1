import CallByNeed.Eval.Interpreter
import CallByNeed.Flow.Graph
import Mathlib.Tactic.Common

/-!
# What flow bodies mean

The value of an operand and the effect of a statement, said without stack, code or slot kinds. A
frame keeps a value for each slot that was assigned, always a value and never a native integer, and
the caller's `...` while a builtin is being called. So the meaning of a body does not depend on how
its slots are represented.

The units of nested bodies and the calls as written are looked up by identity in `Tables`; a body
that reads a slot it never assigned, or goes to a label it does not have, is stuck.
-/

namespace CallByNeed.Flow

/-! ## Frames -/

/-- What the identities in a body stand for. -/
structure Tables where
  thunk : NodeId → CodeUnit
  closure : NodeId → FunctionUnit
  call : Nat → Call

/-- Where a body is evaluated. -/
structure Scene where
  limit : Nat
  host : Host
  env : EnvId
  tables : Tables

/-- What an evaluation of a body keeps beside the store. -/
structure Frame where
  slots : SlotKey → Option Value
  work : Option ArgList

/-- Nothing is assigned. -/
def Frame.empty : Frame := ⟨fun _ => none, none⟩

/-- The frame with a slot assigned. -/
def Frame.set (F : Frame) (key : SlotKey) (v : Value) : Frame :=
  { F with slots := fun k => if k = key then some v else F.slots k }

/-- A step of evaluating a body. -/
abbrev Action := StateT Frame Eval

namespace Action

variable {α : Type}

/-- An evaluation that leaves the frame alone. -/
def lift (act : Eval α) : Action α := StateT.lift act

/-- The body is not one that is ever drafted. -/
def stuck : Action α := lift (Eval.fail (.internal (.unassignedSlot 0)))

/-- What a slot keeps. -/
def read (key : SlotKey) : Action Value := fun F =>
  match F.slots key with
  | some v => pure (v, F)
  | none => stuck F

/-- Running what reads a slot. -/
lemma read_apply (key : SlotKey) (F : Frame) (s : Store) :
    read key F s = match F.slots key with
      | some v => .ok (v, F) s
      | none => .error (.error (.internal (.unassignedSlot 0))) s := by
  unfold read
  cases F.slots key <;> rfl

/-- Assigns a slot. -/
def assign (key : SlotKey) (v : Value) : Action PUnit := modify fun F => F.set key v

/-- Running an action and then another one. -/
lemma bind_apply {β γ : Type} (A : Action β) (B : β → Action γ) (F : Frame) (s : Store) :
    (A >>= B) F s = match A F s with
      | .ok (b, F') s' => B b F' s'
      | .error h s' => .error h s' := by
  show EStateM.bind (A F) (fun r => B r.1 r.2) s = _
  unfold EStateM.bind
  cases A F s <;> rfl

/-- Running an evaluation as an action. -/
lemma lift_apply {β : Type} (act : Eval β) (F : Frame) (s : Store) :
    lift act F s = match act s with
      | .ok b s' => .ok (b, F) s'
      | .error h s' => .error h s' := by
  show EStateM.bind act (fun b => pure (b, F)) s = _
  unfold EStateM.bind
  cases act s <;> rfl

/-- Running two evaluations in order as actions. -/
lemma lift_bind {β γ : Type} (act : Eval β) (f : β → Eval γ) :
    lift (act >>= f) = (lift act >>= fun b => lift (f b)) := by
  funext F s
  rw [bind_apply, lift_apply, lift_apply]
  show (match EStateM.bind act f s with
    | .ok b s' => EStateM.Result.ok (b, F) s'
    | .error h s' => .error h s') = _
  unfold EStateM.bind
  cases act s with
  | error h s' => rfl
  | ok b s' =>
    dsimp only
    rw [lift_apply]

/-- The caller's `...`, where it is kept. -/
def work : Action ArgList := fun F =>
  match F.work with
  | some dots => pure (dots, F)
  | none => stuck F

end Action

/-- Where a statement leads. -/
inductive Exit where
  | next
  | jump (l : Label)
  | ret (v : Value)

/-! ## Operands -/

open Action

/-- Goes on with what a builtin computes. -/
def ofResult {α : Type} : Except Halt α → Eval α
  | .ok a => pure a
  | .error h => throw h

/-- The entries with the one at a position replaced by several. -/
def splicedAt {α : Type} (as : List α) (position : Nat) (entries : List α) : List α :=
  as.take position ++ entries ++ as.drop (position + 1)

/-- An integer one larger. -/
def successor (n : Int32) : Eval Int32 :=
  match Value.int32? (n.toInt + 1) with
  | some n => pure n
  | none => Eval.fail (.primitive "for" .counterOverflow)

/-- Running what counts on. -/
lemma successor_apply (n : Int32) (s : Store) :
    successor n s = match Value.int32? (n.toInt + 1) with
      | some m => .ok m s
      | none => .error (.error (.primitive "for" .counterOverflow)) s := by
  unfold successor
  cases Value.int32? (n.toInt + 1) <;> rfl

namespace Scene

variable (X : Scene)

/-- The value of a late argument that is evaluated now. -/
def late (d : Thunk) : Eval Value :=
  match d.name? with
  | some name => do X.host.force (← Eval.findVariable X.env name)
  | none => X.host.executeNested X.limit (X.tables.thunk d.node) X.env

/-- A late argument as a promise. -/
def promised (d : Thunk) : Eval Value :=
  match d.name? with
  | some name => Eval.promise (.variable name X.env)
  | none => Eval.promise (.compiled (X.tables.thunk d.node) X.env)

/-- Keeps the caller's `...` if it is spliced. -/
def keepDots (o : Operands Term) : Action PUnit :=
  if o.ellipsisIndex?.isSome then do
    let dots ← lift (Eval.findDots X.env)
    modify fun F => { F with work := some dots }
  else pure ()

/-- Splices what the caller's `...` gives into the entries. -/
def spliceDots {α : Type} (o : Operands Term) (give : ArgList → Eval (List α)) (as : List α) :
    Action (List α) :=
  match o.ellipsisIndex? with
  | none => pure as
  | some position => do
    let dots ← work
    let entries ← lift (give dots)
    return splicedAt as position entries

/-- The names and values that a builtin gets. -/
def builtinArguments (o : Operands Term) (values : Action (List Value)) :
    Action (List (Option Symbol) × List Value) := do
  X.keepDots o
  let names ← spliceDots o (fun dots => pure (dots.map Arg.name)) o.names
  let values ← values
  let values ← spliceDots o (fun dots => dots.mapM fun d => X.host.force d.value) values
  return (names, values)

/-- A function that is called: a value that is forced and must be one. -/
def callable (call : Call) (v : Value) : Eval Value := do
  let v ← X.host.force v
  if v.category?.isSome then return v else Eval.fail (.notCallable call.text)

/-- Running what checks that a value can be called. -/
lemma callable_apply (c : Call) (v : Value) (s : Store) :
    X.callable c v s = match X.host.force v s with
      | .ok r s' => if r.category?.isSome then .ok r s' else .error (.error (.notCallable c.text)) s'
      | .error e s' => .error e s' := by
  show EStateM.bind (X.host.force v) _ s = _
  unfold EStateM.bind
  cases X.host.force v s with
  | error e s' => rfl
  | ok r s' =>
    dsimp only
    split <;> rfl

/-- The value of a call of a function, given the two ways of passing arguments. -/
def apply (call : Call) (arguments : Action ArgList)
    (builtin : Action (List (Option Symbol) × List Value)) : Value → Action Value
  | .builtin b => do
    let (names, values) ← builtin
    lift (ofResult (b.invoke call names values))
  | .closure unit env => do
    let args ← arguments
    lift (applyClosure X.limit X.host unit env call args)
  | .special s => lift (s.invoke X.host X.env call)
  | _ => stuck

mutual

/-- The value of an operand. -/
def term : Term → Action Value
  | .int n => pure (.int n)
  | .literal e => pure (.ofExpr e)
  | .temp id => read (.temp id)
  | .local id _ => read (.local id)
  | .env name => lift do X.host.force (← Eval.findVariable X.env name)
  | .element vector index => do
    let v ← term vector
    let i ← term index
    let n ← lift (Eval.ofExcept (i.asInt "integer operand"))
    lift (Eval.ofExcept (v.elementAt n))
  | .length vector => do
    let v ← term vector
    let n ← lift (Eval.ofExcept (Builtin.lengthOf v))
    return .int n
  | .increment counter => do
    let v ← term counter
    let n ← lift (Eval.ofExcept (v.asInt "integer operand"))
    let m ← lift (successor n)
    return .int m
  | .atLeast left right => do
    let a ← term left
    let b ← term right
    let t ← lift (Eval.ofExcept (a.atLeast b))
    return .logical t
  | .closure node _ => pure (.closure (X.tables.closure node) X.env)
  | .thunk deferred => lift (X.late deferred)
  | .ellipsis => stuck
  | .primitive name ⟨site, args, names⟩ => do
    let (names, values) ← X.builtinArguments ⟨site, args, names⟩ (values args)
    match Builtin.ofName? name.name with
    | some b => lift (ofResult (b.invoke (X.tables.call site.id) names values))
    | none => stuck
  | .call callee ⟨site, args, names⟩ => do
    let f ←
      match callee with
      | .name name => lift (X.host.findFunction X.env name)
      | .computed t => do
        let v ← term t
        lift (X.callable (X.tables.call site.id) v)
    X.apply (X.tables.call site.id) (arguments args names)
      (X.builtinArguments ⟨site, args, names⟩ (values args)) f

/-- The arguments of a closure. -/
def arguments : List Term → List (Option Symbol) → Action ArgList
  | t :: ts, name :: names => do
    let first ←
      match t with
      | .ellipsis => lift (Eval.findDots X.env)
      | .thunk deferred => do
        let v ← lift (X.promised deferred)
        pure [⟨name, v⟩]
      | t => do
        let v ← term t
        pure [⟨name, v⟩]
    let rest ← arguments ts names
    return first ++ rest
  | _, _ => return []

/-- The values of the arguments of a builtin, with `NULL` in the place of `...`. -/
def values : List Term → Action (List Value)
  | [] => return []
  | t :: ts => do
    let v ←
      match t with
      | .ellipsis => pure .null
      | t => term t
    let rest ← values ts
    return v :: rest

end

/-! ## Statements -/

/-- Assigns a target. -/
def store (v : Value) : Target → Action PUnit
  | .temp id => assign (.temp id) v
  | .local id _ => assign (.local id) v
  | .env name => lift (Eval.setVariable X.env name v)

/-- The effect of a statement, and where it leads. -/
def statement : Statement Term → Action Exit
  | .assign target value => do
    let v ← X.term value
    X.store v target
    return .next
  | .eval value => do
    let _ ← X.term value
    return .next
  | .goto l => return .jump l
  | .branch condition yes no => do
    let v ← X.term condition
    let t ← lift (Eval.ofExcept v.truthy)
    return .jump (if t then yes else no)
  | .ret value => do
    let v ← X.term value
    return .ret v

/-- Statements in order, up to the first that leads elsewhere. -/
def statements : List (Statement Term) → Action Exit
  | [] => return .next
  | s :: rest => do
    match ← X.statement s with
    | .next => statements rest
    | exit => return exit

/-! ## Graphs -/

/-- Blocks from the one at a position on, at most `bound` of them. -/
def blocks (g : Graph) : Nat → Nat → Action Value
  | 0, _ => lift (throw .exhausted)
  | bound + 1, position => do
    match g[position]? with
    | none => stuck
    | some b =>
      match ← X.statements b.statements with
      | .next => stuck
      | .ret v => return v
      | .jump l =>
        match g.blockOf? l with
        | none => stuck
        | some position => blocks g bound position

/-- The value that a graph returns. -/
def graph (g : Graph) (bound : Nat) : Eval Value := fun s =>
  match X.blocks g bound 0 .empty s with
  | .ok (v, _) s => .ok v s
  | .error h s => .error h s

end Scene

end CallByNeed.Flow
