import CallByNeed.Eval.Store

/-!
# Nested evaluations

Forcing a promise, evaluating an expression and executing a unit need each other. None of them calls
another one directly: each asks a host for the evaluations nested in its own. So each is an ordinary
function of its host, and only the host needs a bound on how deeply evaluations nest.
-/

namespace CallByNeed

/-- An evaluation that may be nested in another one. -/
inductive Task where
  /-- The value of a promise. -/
  | force (p : PromiseId)
  /-- The value of an expression as written, without compiling it. -/
  | eval (env : EnvId) (e : Expr)
  /-- The value that a unit returns. -/
  | execute (unit : CodeUnit) (env : EnvId)

/-- What answers tasks. -/
abbrev Host := Task → Eval Value

namespace Host

/-- The value behind a promise; any other value is itself. -/
def force (host : Host) : Value → Eval Value
  | .promise p => host (.force p)
  | v => pure v

/-- The first function of a name in the given environments. Promises met on the way are forced, and
what is not a function is passed over. -/
def functionIn (host : Host) (name : Symbol) : List EnvId → Eval Value
  | [] => Eval.fail (.unresolvedFunction name.name)
  | env :: rest => do
    match (← get).local? env name with
    | none => functionIn host name rest
    | some v => do
      let v ← host.force v
      if v.category?.isSome then return v else functionIn host name rest

/-- The nearest function of a name. -/
def findFunction (host : Host) (env : EnvId) (name : Symbol) : Eval Value := do
  host.functionIn name ((← get).chain env)

/-- Executes a unit one level deeper. -/
def executeNested (host : Host) (limit : Nat) (unit : CodeUnit) (env : EnvId) : Eval Value :=
  Eval.enter limit (host (.execute unit env))

end Host

/-! ## Promises -/

/-- The value of what a promise stands for. -/
def Suspension.value (limit : Nat) (host : Host) : Suspension → Eval Value
  | .variable name env => do host.force (← Eval.findVariable env name)
  | .compiled unit env => host.executeNested limit unit env
  | .interpreted e env => host (.eval env e)
  | .missing name => Eval.fail (.unbound name.name)

/-- The value of a promise. It is evaluated when it is first needed and kept; an evaluation that
fails leaves the promise as it was, to be tried again. A number without a promise stands for
`NULL`. -/
def forcePromise (limit : Nat) (host : Host) (p : PromiseId) : Eval Value := do
  match (← get).promises[p]?.map Promise.status with
  | some (.forced v) => return v
  | some (.forcing _) => Eval.fail .promiseRecursion
  | some (.pending s) => do
    modify fun store => store.begin p s
    (s.value limit host).settled fun outcome store =>
      match outcome with
      | .ok v => store.setStatus p (.forced v)
      | .error _ => store.setStatus p (.pending s)
  | none => return .null

end CallByNeed
