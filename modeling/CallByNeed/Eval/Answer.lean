import CallByNeed.Eval.Execution

/-!
# Answering tasks

The host that programs run on. It is defined by recursion on a bound for how deeply evaluations
nest; the same bound limits the steps of each unit. An evaluation that uses it up is `exhausted`,
which is neither a value nor an error of the program.
-/

namespace CallByNeed

/-- Performs a task whose nested evaluations the host answers. -/
def perform (options : RuntimeOptions) (host : Host) (steps : Nat) : Task → Eval Value
  | .force p => forcePromise options.maxDepth host p
  | .eval env e => Interpreter.eval options.maxDepth host env e
  | .execute unit env => Machine.run options host unit env steps (Machine.start unit env)

/-- The host of evaluations that nest less deeply than `bound`. -/
def answer (options : RuntimeOptions) : Nat → Host
  | 0 => fun _ => throw .exhausted
  | bound + 1 => perform options (answer options bound) bound

/-- A bound that no program of any practical size gets to. -/
def evaluationBound : Nat := Nat.pow 2 62

/-! ## Whole programs -/

/-- Binds the definitions of a program in the global environment and executes its body there. -/
def CompiledProgram.execute (p : CompiledProgram) (options : RuntimeOptions) (bound : Nat) :
    Eval Value := do
  for (name, unit) in p.definitions do
    Eval.setVariable globalEnv name (.closure unit globalEnv)
  answer options bound (.execute p.main globalEnv)

/-- Why a program has no value. -/
inductive Failure where
  | compile (e : CompileError)
  | eval (e : EvalError)
  /-- The evaluator broke off. -/
  | aborted
  /-- The bound on the evaluation is used up. -/
  | exhausted
deriving DecidableEq

/-- The failure of an evaluation that stopped. -/
def Failure.ofHalt : Halt → Failure
  | .error e => .eval e
  | .abort => .aborted
  | .exhausted => .exhausted

/-- The message of a failure. -/
def Failure.message : Failure → String
  | .compile e => s!"[{e.code}] compile error: {e.message}"
  | .eval e => s!"[{e.code}] error: {e.message}"
  | .aborted => "Error: evaluator thread panicked"
  | .exhausted => "Error: evaluation bound reached"

/-- What is left of a program that has run: its value or why it has none, and the store. -/
structure Outcome where
  result : Except Failure Value
  store : Store

/-- Compiles a program and runs it in a fresh store. -/
def Program.run (p : Program) (config : Config) (bound : Nat) : Outcome :=
  match Compiling.program config.compiler .counting p #[] with
  | .error e journal => ⟨.error (.compile e), { Store.fresh with journal }⟩
  | .ok compiled journal =>
    let store := { Store.fresh with journal }.log .info
      s!"running {compiled.main.fingerprint} ({compiled.definitions.length} definitions)"
    match compiled.execute config.runtime bound store with
    | .ok v store => ⟨.ok v, store⟩
    | .error h store => ⟨.error (.ofHalt h), store⟩

end CallByNeed
