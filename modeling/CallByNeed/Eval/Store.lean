import CallByNeed.Eval.Value
import CallByNeed.Journal

/-!
# The store

All that changes while a program runs: environments, promises, the depth of nested calls, and the
journal. Environments and promises are numbered in the order in which they are made and never go
away. An evaluation is a function on stores that may stop without a value; the store it leaves is
then still the current one.
-/

namespace CallByNeed

/-! ## Environments -/

/-- An environment: its own variables, and the environments around it, the nearest first. -/
structure Environment where
  vars : List (Symbol × Value) := []
  outer : List EnvId := []

/-- The variables after one is set: in its place if it has one, behind the others if not. -/
def bindIn (name : Symbol) (value : Value) : List (Symbol × Value) → List (Symbol × Value)
  | [] => [(name, value)]
  | (n, v) :: rest => if n = name then (n, value) :: rest else (n, v) :: bindIn name value rest

/-- A variable holds what it was set to. -/
theorem lookup_bindIn_same (name : Symbol) (value : Value) (vars : List (Symbol × Value)) :
    (bindIn name value vars).lookup name = some value := by
  induction vars with
  | nil => simp [bindIn]
  | cons entry rest ih =>
    obtain ⟨n, v⟩ := entry
    by_cases h : n = name
    · simp [bindIn, h]
    · simp [bindIn, h, List.lookup_cons, ih, beq_eq_false_iff_ne.2 (Ne.symm h)]

/-- Setting a variable leaves the others alone. -/
theorem lookup_bindIn_other {name other : Symbol} (h : other ≠ name) (value : Value)
    (vars : List (Symbol × Value)) :
    (bindIn name value vars).lookup other = vars.lookup other := by
  induction vars with
  | nil => simp [bindIn, List.lookup_cons, beq_eq_false_iff_ne.2 h]
  | cons entry rest ih =>
    obtain ⟨n, v⟩ := entry
    by_cases hn : n = name
    · subst hn
      simp [bindIn, List.lookup_cons, beq_eq_false_iff_ne.2 h]
    · simp [bindIn, hn, List.lookup_cons, ih]

/-! ## Promises -/

/-- What a promise stands for while it has no value. -/
inductive Suspension where
  /-- A variable, looked up when the promise is forced. -/
  | variable (name : Symbol) (env : EnvId)
  /-- The unit of an expression. -/
  | compiled (unit : CodeUnit) (env : EnvId)
  /-- An expression as written. -/
  | interpreted (expr : Expr) (env : EnvId)
  /-- A formal with neither an argument nor a default. -/
  | missing (name : Symbol)

/-- How far a promise is. -/
inductive Status where
  | pending (s : Suspension)
  /-- Under evaluation. -/
  | forcing (s : Suspension)
  | forced (v : Value)

/-- A promise, with the number of times its evaluation was begun. -/
structure Promise where
  status : Status
  evaluations : Nat := 0

/-- The promise has its value. -/
def Promise.isForced (p : Promise) : Bool :=
  match p.status with
  | .forced _ => true
  | _ => false

/-! ## The store -/

/-- The state of an evaluation. -/
structure Store where
  environments : Array Environment := #[]
  promises : Array Promise := #[]
  depth : Nat := 0
  journal : Journal := #[]

/-- The number of the global environment. -/
def globalEnv : EnvId := 0

namespace Store

/-- The functions that every program can call. -/
def globals : List (Symbol × Value) :=
  Builtin.all.map (fun b => (⟨b.name⟩, .builtin b))
    ++ Special.all.map fun s => (⟨s.name⟩, .special s)

/-- A store with a global environment and nothing else. -/
def fresh : Store := { environments := #[⟨globals, []⟩] }

/-- An environment and those around it, the nearest first. -/
def chain (s : Store) (env : EnvId) : List EnvId :=
  match s.environments[env]? with
  | some e => env :: e.outer
  | none => [env]

/-- The variable of an environment itself. -/
def local? (s : Store) (env : EnvId) (name : Symbol) : Option Value :=
  match s.environments[env]? with
  | some e => e.vars.lookup name
  | none => none

/-- The nearest variable of a name, not forced. -/
def find? (s : Store) (env : EnvId) (name : Symbol) : Option Value :=
  (s.chain env).findSome? fun e => s.local? e name

/-- Sets a variable of an environment. -/
def set (s : Store) (env : EnvId) (name : Symbol) (value : Value) : Store :=
  { s with
    environments := s.environments.modify env fun e => { e with vars := bindIn name value e.vars } }

/-- Makes an environment inside another one. It gets the next number. -/
def addChild (s : Store) (env : EnvId) : Store :=
  let outer := s.chain env
  { s with environments := s.environments.push ⟨[], outer⟩ }

/-- Makes a promise. It gets the next number. -/
def addPromise (s : Store) (p : Promise) : Store :=
  { s with promises := s.promises.push p }

/-- Moves a promise on. -/
def setStatus (s : Store) (p : PromiseId) (status : Status) : Store :=
  { s with promises := s.promises.modify p fun q => { q with status := status } }

/-- Begins the evaluation of a promise. -/
def begin (s : Store) (p : PromiseId) (suspension : Suspension) : Store :=
  { s with
    promises := s.promises.modify p fun q => ⟨.forcing suspension, q.evaluations + 1⟩ }

/-- Adds a message to the journal. -/
def log (s : Store) (level : LogLevel) (message : String) : Store :=
  { s with journal := s.journal.push ⟨level, message⟩ }

end Store

/-! ## Evaluations -/

/-- A step of an evaluation. -/
abbrev Eval := EStateM Halt Store

namespace Eval

/-- Stops with an error. -/
def fail {α : Type} (e : EvalError) : Eval α := throw (.error e)

/-- Goes on with the outcome of a computation that leaves the store alone. -/
def ofExcept {α : Type} : Except EvalError α → Eval α
  | .ok a => pure a
  | .error e => fail e

/-- Changes the store once an evaluation is over, with a value or without. -/
def settled {α : Type} (act : Eval α) (settle : Except Halt α → Store → Store) : Eval α := fun s =>
  match act s with
  | .ok a s => .ok a (settle (.ok a) s)
  | .error e s => .error e (settle (.error e) s)

/-- The nearest variable of a name, not forced. -/
def findVariable (env : EnvId) (name : Symbol) : Eval Value := do
  match (← get).find? env name with
  | some v => return v
  | none => fail (.unbound name.name)

/-- Sets a variable of an environment. -/
def setVariable (env : EnvId) (name : Symbol) (value : Value) : Eval Unit :=
  modify fun s => s.set env name value

/-- A new environment inside another one. -/
def child (env : EnvId) : Eval EnvId :=
  modifyGet fun s => (s.environments.size, s.addChild env)

/-- A new promise. -/
def promise (suspension : Suspension) : Eval Value :=
  modifyGet fun s => (.promise s.promises.size, s.addPromise ⟨.pending suspension, 0⟩)

/-- The arguments bound to `...`. -/
def findDots (env : EnvId) : Eval ArgList := do
  match ← findVariable env .ellipsis with
  | .dots args => return args
  | v => fail (.argumentType "'...' used in an incorrect context" "..." v.typeName)

/-- Evaluates one level deeper, unless the limit is reached. -/
def enter {α : Type} (limit : Nat) (act : Eval α) : Eval α := do
  if limit ≤ (← get).depth then fail (.depthExceeded limit)
  modify fun s => { s with depth := s.depth + 1 }
  act.settled fun _ s => { s with depth := s.depth - 1 }

end Eval

end CallByNeed
