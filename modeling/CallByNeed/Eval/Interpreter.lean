import CallByNeed.Code.OfProgram
import CallByNeed.Eval.Builtins
import CallByNeed.Eval.Matching
import CallByNeed.Eval.Special

/-!
# Evaluating expressions as written

Special forms, and the promises made here, evaluate expressions without compiling them; only
function literals are compiled, with the default settings. The callee of a call is found first, and
decides whether the arguments are evaluated, become promises, or are left as written.
-/

namespace CallByNeed

namespace Interpreter

/-- A closure over an environment. -/
def closure (env : EnvId) (f : Function) : Eval Value := fun s =>
  match Compiling.functionLiteral {} .counting none "closure" f #[] with
  | .ok unit notes => .ok (.closure unit env) { s with journal := s.journal ++ notes }
  | .error e notes => .error (.error (.compile e)) { s with journal := s.journal ++ notes }

/-- The function that a call is of. -/
def callee (host : Host) (env : EnvId) (call : Call) : Eval Value := do
  match call.name? with
  | some name =>
    if name.isEllipsis then host (.eval env call.callee) >>= callable
    else host.findFunction env name
  | none => host (.eval env call.callee) >>= callable
where
  /-- A value that must be a function. -/
  callable (v : Value) : Eval Value :=
    if v.category?.isSome then pure v else Eval.fail (.notCallable call.text)

/-- What an argument of a builtin adds to its arguments: its value, or those of `...`. -/
def argumentValues (host : Host) (env : EnvId) (a : Arg Expr) : Eval ArgList := do
  if a.value.isEllipsis then
    (← Eval.findDots env).mapM fun d => return ⟨d.name, ← host.force d.value⟩
  else
    return [⟨a.name, ← host (.eval env a.value)⟩]

/-- What an argument of a closure adds to its arguments: a literal its value, `...` what is bound to
it, anything else a promise. -/
def argumentPromises (env : EnvId) (a : Arg Expr) : Eval ArgList := do
  if a.value.isEllipsis then Eval.findDots env
  else if a.value.isConstant then return [⟨a.name, .ofExpr a.value⟩]
  else
    let suspension :=
      match a.value with
      | .symbol name => .variable name env
      | e => .interpreted e env
    return [⟨a.name, ← Eval.promise suspension⟩]

/-- The value of a call. -/
def apply (limit : Nat) (host : Host) (env : EnvId) (call : Call) : Eval Value := do
  match ← callee host env call with
  | .builtin b => do
    let args := (← call.args.mapM (argumentValues host env)).flatten
    match b.invoke call (args.map Arg.name) (args.map Arg.value) with
    | .ok v => return v
    | .error h => throw h
  | .closure unit closureEnv => do
    let args := (← call.args.mapM (argumentPromises env)).flatten
    applyClosure limit host unit closureEnv call args
  | .special s => s.invoke host env call
  | v => Eval.fail (.internal (.strangeCallee call.text v.typeName))

/-- The value of an expression. -/
def eval (limit : Nat) (host : Host) (env : EnvId) : Expr → Eval Value
  | .symbol name => do
    if name.isEllipsis then Eval.fail (.primitive "eval" .misplacedEllipsis)
    else host.force (← Eval.findVariable env name)
  | .function formals body => closure env ⟨formals, body⟩
  | .call callee args => apply limit host env ⟨callee, args⟩
  | e => return .ofExpr e

end Interpreter

end CallByNeed
