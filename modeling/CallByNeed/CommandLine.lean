import CallByNeed.Eval.Answer
import CallByNeed.File
import CallByNeed.Flow.OfProgram

/-!
# The command line

What a command line asks for, and what is printed in answer: the value of a program, the listing of
its code, or its graphs. The answer is computed from what the files hold and from the environment
variables; nothing is printed here.
-/

namespace CallByNeed.CommandLine

/-! ## Requests -/

/-- Flags, which may stand anywhere. -/
structure Flags where
  verbose : Bool
  trace : Bool
  noFastPath : Bool
  sequential : Bool

/-- The flags that take no value. -/
def flagNames : List String := ["--verbose", "--trace", "--no-fast-path", "--sequential"]

/-- The flags among arguments. -/
def Flags.ofArgs (args : List String) : Flags :=
  ⟨args.contains "--verbose", args.contains "--trace", args.contains "--no-fast-path",
    args.contains "--sequential"⟩

/-- Takes the first `--config` and its value out of the arguments; `none` if it has no value. -/
def takeConfig? : List String → Option (Option String × List String)
  | [] => some (none, [])
  | "--config" :: rest =>
    match rest with
    | path :: rest => some (some path, rest)
    | [] => none
  | arg :: rest => (takeConfig? rest).map fun found => (found.1, arg :: found.2)

/-- The settings changed by flags. -/
def Flags.apply (f : Flags) (c : Config) : Config :=
  { compiler :=
      { c.compiler with
        integerFastPath := c.compiler.integerFastPath && !f.noFastPath
        parallel := c.compiler.parallel && !f.sequential }
    runtime := { c.runtime with trace := c.runtime.trace || f.trace } }

/-! ## Reports -/

/-- What is printed, line by line, and the exit code. -/
structure Report where
  out : List String := []
  err : List String := []
  code : Nat := 0
  /-- What the compiler and the evaluator have to say, for those who want to know. -/
  journal : Journal := #[]

/-- A report of a failure. -/
def Report.failure (message : String) (code : Nat) : Report := { err := [message], code }

/-- How to use the command line. -/
def help : List String :=
  ["Rill CLI",
   "",
   "Usage:",
   "  rill run <program.json>",
   "  rill bytecode <program.json>",
   "  rill cfg <program.json>",
   "",
   "Flags:",
   "  --verbose          Log compilation summaries",
   "  --trace            Trace every executed instruction",
   "  --config <path>    Read options from a JSON file",
   "  --no-fast-path     Compile loop counters as ordinary values",
   "  --sequential       Compile definitions on one thread",
   "",
   "Environment:",
   "  RILL_TRACE, RILL_MAX_DEPTH, RILL_PARALLEL, RUST_LOG",
   ""]

/-- How to give settings. -/
def configUsage : String := "Usage: rill --config <path> <command> <program.json>"

/-! ## Commands -/

/-- What can be done with a program. -/
inductive Command where
  | run
  | bytecode
  | cfg

/-- The command with a name. -/
def Command.ofName? : String → Option Command
  | "run" => some run
  | "bytecode" => some bytecode
  | "cfg" => some cfg
  | _ => none

/-- The exit code of a failure. -/
def exitCode : Failure → Nat
  | .compile _ | .eval _ => 1
  | .aborted | .exhausted => 101

/-- Runs a program and shows its value. -/
def runReport (p : Program) (config : Config) (bound : Nat) : Report :=
  let outcome := p.run config bound
  match outcome.result with
  | .ok v => { out := [v.text], journal := outcome.store.journal }
  | .error e =>
    { err := [e.message], code := exitCode e, journal := outcome.store.journal }

/-- Shows the code of a program. -/
def bytecodeReport (p : Program) (config : Config) : Report :=
  match Compiling.program config.compiler .counting p #[] with
  | .error e journal => { err := [(Failure.compile e).message], code := 1, journal }
  | .ok compiled journal =>
    let notes := compiled.definitions.map fun d =>
      (⟨.info, s!"{d.1.name} body fingerprint {d.2.body.fingerprint}"⟩ : LogRecord)
    { out := s!"fingerprint: {compiled.main.fingerprint}" :: compiled.listing?.getD []
      journal := journal ++ notes }

/-- Shows the graphs of a program. -/
def cfgReport (p : Program) (config : Config) : Report :=
  let (units, error?) := Flow.unitsOfProgram config.compiler .counting p
  let out := units.flatMap Flow.Unit.lines
  match error? with
  | none => { out }
  | some e => { out, err := [(Failure.compile e).message], code := 1 }

/-- Carries out a command on a program. -/
def Command.report (c : Command) (p : Program) (config : Config) (bound : Nat) : Report :=
  match c with
  | run => runReport p config bound
  | bytecode => bytecodeReport p config
  | cfg => cfgReport p config

/-! ## Answers -/

section

variable {m : Type → Type} [Monad m]

/-- The settings in effect: from the file, then from environment variables, then from flags. -/
def settings (readFile : String → m FileText) (lookup : String → Option String)
    (path? : Option String) (flags : Flags) : m (Except String Config) := do
  let loaded ←
    match path? with
    | none => pure (.ok {})
    | some path => do pure (Config.ofFile path (← readFile path))
  match loaded with
  | .error e => return .error e.message
  | .ok config =>
    match config.applyOverrides lookup with
    | (config, none) => return .ok (flags.apply config)
    | (_, some e) => return .error e.message

/-- Answers the words that are left of a command line: a command and a file. -/
def answerWords (readFile : String → m FileText) (config : Config) (bound : Nat) :
    List String → m Report
  | name :: path :: _ =>
    match Command.ofName? name with
    | some command => do
      match Program.ofFile path (← readFile path) with
      | .ok p => return command.report p config bound
      | .error e => return .failure e.message 1
    | none =>
      if ["-h", "--help", "help"].contains name then return { out := help }
      else return { out := help, err := [s!"Error: unknown command `{name}`"], code := 2 }
  | _ => return { out := help }

/-- Answers a command line, without the name of the program in front. Evaluations nest less deeply
than `bound`. -/
def answer (readFile : String → m FileText) (lookup : String → Option String) (bound : Nat)
    (args : List String) : m Report := do
  match takeConfig? (args.filter fun a => !flagNames.contains a) with
  | none => return { err := [configUsage] }
  | some (path?, words) =>
    match ← settings readFile lookup path? (.ofArgs args) with
    | .error message => return .failure ("Error: " ++ message) 1
    | .ok config => answerWords readFile config bound words

end

end CallByNeed.CommandLine
