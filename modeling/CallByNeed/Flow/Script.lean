import CallByNeed.Expr.Json
import CallByNeed.Flow.OfExpr

/-!
# Bodies drafted by scripts

A script is a list of steps in JSON, each of which takes a fresh identity or appends a line. Steps
refer to temporaries, local variables and labels by identities of their own; a label that is taken
again under one identity replaces the first. Late arguments, function literals and calls that name a
share are made once and used wherever the share is named.
-/

namespace CallByNeed.Flow

/-- Why a script does not draft a body. -/
inductive ScriptError where
  | malformed
  | compile (e : CompileError)

/-- The draft of a script, and what its identities stand for. -/
structure Script where
  draft : Draft := {}
  temps : List (String × Nat) := []
  locals : List (String × Nat × Symbol) := []
  labels : List (String × Label) := []
  thunks : List (String × Thunk) := []
  closures : List (String × Term) := []
  sites : List (String × CallSite) := []

/-- A step of a script. -/
abbrev Scripting := StateT Script (Except ScriptError)

namespace Script

/-- Something that a step cannot do without. -/
def need {α : Type} : Option α → Scripting α
  | some a => pure a
  | none => throw .malformed

/-- Carries out a step of drafting. -/
def drafting {α : Type} (step : Drafting α) : Scripting α := fun s =>
  let draft := s.draft
  let s := { s with draft := {} }
  match step draft with
  | .ok (a, draft) => .ok (a, { s with draft := draft })
  | .error e => .error (.compile e)

/-- The identity that a script gives to something: the value that spells it. -/
def key (j : Json) : String := j.compact

/-- The identity in a field. -/
def keyIn (j : Json) (name : String) : Scripting String := do
  return key (← need (j.get? name))

/-- A thing that is made once for each share. -/
def shared {α : Type} (j : Json) (known : Script → List (String × α))
    (keep : String × α → Script → Script) (make : Scripting α) : Scripting α := do
  match (j.get? "share").map key with
  | none => make
  | some k =>
    match (known (← get)).lookup k with
    | some found => return found
    | none => do
      let made ← make
      modify (keep (k, made))
      return made

/-! ## Operands -/

/-- The target that an object names. -/
def target (j : Json) : Scripting Target := do
  match j.get? "temp", j.get? "local", j.getString? "env" with
  | some t, _, _ => return .temp (← need ((← get).temps.lookup (key t)))
  | _, some l, _ => do
    let (id, name) ← need ((← get).locals.lookup (key l))
    return .local id name
  | _, _, some name => return .env ⟨name⟩
  | _, _, _ => need none

/-- A late argument. -/
def thunk (options : CompilerOptions) (nesting : Nat) (j source : Json) : Scripting Thunk := do
  let e ← need (Expr.ofJson? nesting source)
  shared j Script.thunks (fun t s => { s with thunks := t :: s.thunks }) (drafting do
    let body ← bodyOf options .counting e
    return ⟨← Drafting.node .counting, e, body⟩)

/-- A function literal. -/
def closure (options : CompilerOptions) (nesting : Nat) (j source : Json) : Scripting Term := do
  let f ← need (Function.ofJson? nesting source)
  shared j Script.closures (fun t s => { s with closures := t :: s.closures }) (drafting do
    let p ← procedureOf options .counting ((j.getString? "name").map Symbol.mk) f
    return .closure (← Drafting.node .counting) p)

/-- The arguments of a call. With a repetition the first one stands so often; without names all are
positional. -/
def operands (nesting : Nat) (j : Json) (args : List Term) : Scripting (Operands Term) := do
  let args :=
    match j.getNat? "repeat", args with
    | some n, first :: _ => List.replicate n first
    | _, args => args
  let names :=
    match (j.get? "names").bind Json.items? with
    | some names => names.map fun n => n.string?.map Symbol.mk
    | none => args.map fun _ => none
  let call ← need ((j.get? "node").bind (Call.ofJson? nesting))
  let site ← shared j Script.sites (fun t s => { s with sites := t :: s.sites })
    (drafting (Drafting.site .counting call))
  return ⟨site, args, names⟩

/-- The operand that a value spells, nesting at most so deeply. -/
def term (options : CompilerOptions) : Nat → Json → Scripting Term
  | 0, _ => throw .malformed
  | _, .text (some "ellipsis") => return .ellipsis
  | nesting + 1, .object ((some kind, value) :: rest) => do
    let j : Json := .object ((some kind, value) :: rest)
    match kind, value with
    | "int", n => return .int (← need n.int32?)
    | "const", e => return .literal (← need (Expr.ofJson? nesting e))
    | "element", .array [v, i] =>
      return .element (← term options nesting v) (← term options nesting i)
    | "cmp_ge", .array [a, b] =>
      return .atLeast (← term options nesting a) (← term options nesting b)
    | "length", v => return .length (← term options nesting v)
    | "increment", t => return .increment (← term options nesting t)
    | "temp", _ | "local", _ | "env", _ => return .ofTarget (← target j)
    | _, _ =>
      match j.get? "thunk", j.get? "closure", j.get? "call", j.get? "primitive" with
      | some source, _, _, _ => return .thunk (← thunk options nesting j source)
      | _, some source, _, _ => closure options nesting j source
      | _, _, some call, _ => do
        let callee ←
          match call.get? "callee" with
          | some (.text (some name)) => pure (.name ⟨name⟩)
          | some c => do pure (.computed (← term options nesting c))
          | none => throw .malformed
        let args ← (call.getItems "args").mapM (term options nesting)
        return .call callee (← operands nesting call args)
      | _, _, _, some call => do
        let name ← need (call.getString? "name")
        let args ← (call.getItems "args").mapM (term options nesting)
        return .primitive ⟨name⟩ (← operands nesting call args)
      | _, _, _, _ => throw .malformed
  | _, _ => throw .malformed

/-- The operand in a field. -/
def termIn (options : CompilerOptions) (nesting : Nat) (j : Json) (name : String) :
    Scripting Term := do
  term options nesting (← need (j.get? name))

/-! ## Steps -/

/-- The label that a field names. -/
def labelIn (j : Json) (name : String) : Scripting Label := do
  let k ← keyIn j name
  need ((← get).labels.lookup k)

/-- Takes a fresh label for an identity. -/
def takeLabel (k : String) : Scripting Unit := do
  let label ← drafting (Drafting.label .counting)
  modify fun s =>
    { s with
      labels :=
        if (s.labels.lookup k).isSome then s.labels.map fun l => if l.1 = k then (k, label) else l
        else s.labels ++ [(k, label)] }

/-- Does something a number of times. -/
def times (act : Scripting Unit) : Nat → Scripting Unit
  | 0 => pure ()
  | n + 1 => do
    act
    times act n

/-- Carries out a step, nesting at most so deeply. -/
def step (options : CompilerOptions) : Nat → Json → Scripting Unit
  | 0, _ => throw .malformed
  | nesting + 1, j => do
    match j.getString? "do" with
    | some "temp" => do
      let k ← keyIn j "id"
      let slot ← drafting (Drafting.slot .counting)
      modify fun s => { s with temps := (k, slot) :: s.temps }
    | some "local" => do
      let k ← keyIn j "id"
      let name ← need (j.getString? "name")
      let slot ← drafting (Drafting.slot .counting)
      modify fun s => { s with locals := (k, slot, ⟨name⟩) :: s.locals }
    | some "label" => takeLabel (← keyIn j "id")
    | some "assign" => do
      let target ← target (← need (j.get? "to"))
      let value ← termIn options nesting j "value"
      drafting (Drafting.assign target value)
    | some "eval" => do
      let value ← termIn options nesting j "value"
      drafting (Drafting.eval value)
    | some "goto" => do
      let label ← labelIn j "label"
      drafting (Drafting.goto label)
    | some "branch" => do
      let condition ← termIn options nesting j "if"
      let yes ← labelIn j "then"
      let no ← labelIn j "else"
      drafting (Drafting.branch condition yes no)
    | some "return" => do
      let value ← termIn options nesting j "value"
      drafting (Drafting.ret value)
    | some "place" => do
      let label ← labelIn j "label"
      drafting (Drafting.place label)
    | some "repeat" =>
      times ((j.getItems "steps").forM (step options nesting)) ((j.getNat? "times").getD 0)
    | _ => throw .malformed

/-- The script that steps make up. -/
def ofJson (options : CompilerOptions) (nesting : Nat) (steps : List Json) :
    Except ScriptError Script :=
  ((steps.forM (step options nesting)).run {}).map Prod.snd

/-- The body that a script has drafted. -/
def body (s : Script) : Body := s.draft.lines.toList

end Script

end CallByNeed.Flow
