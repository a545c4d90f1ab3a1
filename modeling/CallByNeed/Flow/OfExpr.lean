import CallByNeed.Config
import CallByNeed.Flow.Draft

/-!
# From expressions to flow bodies

Calls become calls with late arguments, each with a body of its own; literals are passed as they
are. With inlined control flow, `if`, `for`, braces and `<-` become branches and assignments where
their shape allows it, with positional arguments only; any other shape stays a call. Calls of
static primitives evaluate their arguments at once, from left to right.
-/

namespace CallByNeed.Flow

open Drafting

/-- Puts an operand into a temporary unless evaluating it has no effect. -/
def settle (ids : IdSource) (value : Term) : Drafting Term := do
  if value.isTrivial then return value
  let temp ← slot ids
  assign (.temp temp) value
  return .temp temp

/-- A conditional: the condition, then one branch for each outcome, both assigning one temporary. -/
def conditional (ids : IdSource) (condition yes no : Drafting Term) : Drafting Term := do
  let condition ← condition
  let result ← slot ids
  let yesLabel ← label ids
  let noLabel ← label ids
  let done ← label ids
  branch condition yesLabel noLabel
  place yesLabel
  assign (.temp result) (← yes)
  goto done
  place noLabel
  assign (.temp result) (← no)
  goto done
  place done
  return .temp result

/-- A loop over the elements of a sequence, counted by a native integer. -/
def loop (ids : IdSource) (name : Symbol) (sequence body : Drafting Term) : Drafting Term := do
  let seq ← slot ids
  assign (.temp seq) (← sequence)
  let length ← slot ids
  let counter ← slot ids
  assign (.local length ⟨"length"⟩) (.length (.temp seq))
  assign (.local counter ⟨"i"⟩) (.int 0)
  let head ← label ids
  let inside ← label ids
  let exit ← label ids
  place head
  branch (.atLeast (.local counter ⟨"i"⟩) (.local length ⟨"length"⟩)) exit inside
  place inside
  assign (.env name) (.element (.temp seq) (.local counter ⟨"i"⟩))
  evalUnlessTrivial (← body)
  assign (.local counter ⟨"i"⟩) (.increment (.local counter ⟨"i"⟩))
  goto head
  place exit
  return .null

/-- An assignment to a variable of the environment; its value is the value assigned. -/
def assignment (ids : IdSource) (name : Symbol) (value : Drafting Term) : Drafting Term := do
  let value ← value
  let temp ← slot ids
  assign (.temp temp) value
  assign (.env name) (.temp temp)
  return .temp temp

/-- A call whose callee is found when it runs. -/
def dynamicCall (ids : IdSource) (call : Call) (callee : Drafting (Callee Term))
    (args : Drafting (List Term)) : Drafting Term := do
  let callee ← callee
  let args ← args
  let site ← site ids call
  return .call callee ⟨site, args, call.args.map Arg.name⟩

/-- A call of a builtin known by name. -/
def primitiveCall (ids : IdSource) (name : Symbol) (call : Call)
    (args : Drafting (List Term)) : Drafting Term := do
  let args ← args
  let site ← site ids call
  return .primitive name ⟨site, args, call.args.map Arg.name⟩

mutual

/-- Drafts what evaluates an expression and gives the operand that holds its value. -/
def term (options : CompilerOptions) (ids : IdSource) : Expr → Drafting Term
  | .symbol s => if s.isEllipsis then throw .misplacedEllipsis else return .env s
  | .null => return .literal .null
  | .logical b => return .literal (.logical b)
  | .int n => return .literal (.int n)
  | .double x => return .literal (.double x)
  | .str s => return .literal (.str s)
  | .function formals body => do
    let formals ← defaults options ids formals
    let body ← nested (term options ids body)
    return .closure (← node ids) ⟨none, formals, body⟩
  | .call callee args =>
    let call : Call := ⟨callee, args⟩
    let plain : Drafting Term :=
      match callee with
      | .symbol s =>
        if options.isStaticPrimitive s.name then
          primitiveCall ids s call (eagerArgs options ids args)
        else if s.isEllipsis then throw .misplacedEllipsis
        else dynamicCall ids call (return .name s) (lateArgs options ids args)
      | callee =>
        dynamicCall ids call (return .computed (← term options ids callee))
          (lateArgs options ids args)
    if options.inlineControlFlow && args.all fun a => a.name.isNone then
      match callee, args with
      | .symbol ⟨"if"⟩, [⟨_, condition⟩, ⟨_, yes⟩] =>
        conditional ids (term options ids condition) (term options ids yes) (return .null)
      | .symbol ⟨"if"⟩, [⟨_, condition⟩, ⟨_, yes⟩, ⟨_, no⟩] =>
        conditional ids (term options ids condition) (term options ids yes) (term options ids no)
      | .symbol ⟨"for"⟩, [⟨_, .symbol name⟩, ⟨_, sequence⟩, ⟨_, body⟩] =>
        if name.isEllipsis then plain
        else loop ids name (term options ids sequence) (term options ids body)
      | .symbol ⟨"\x7b"⟩, args => steps options ids args
      | .symbol ⟨"<-"⟩, [⟨_, .symbol name⟩, ⟨_, value⟩] =>
        if name.isEllipsis then plain else assignment ids name (term options ids value)
      | _, _ => plain
    else plain

/-- The steps of a block: all are evaluated, the last one is the value. -/
def steps (options : CompilerOptions) (ids : IdSource) : List (Arg Expr) → Drafting Term
  | [] => return .null
  | [⟨_, last⟩] => term options ids last
  | ⟨_, step⟩ :: rest => do
    evalUnlessTrivial (← term options ids step)
    steps options ids rest

/-- Arguments evaluated at once, from left to right. -/
def eagerArgs (options : CompilerOptions) (ids : IdSource) :
    List (Arg Expr) → Drafting (List Term)
  | [] => return []
  | ⟨_, value⟩ :: rest => do
    let t ← if value.isEllipsis then pure .ellipsis else do settle ids (← term options ids value)
    return t :: (← eagerArgs options ids rest)

/-- Arguments evaluated late: literals as they are, anything else with a body of its own. -/
def lateArgs (options : CompilerOptions) (ids : IdSource) :
    List (Arg Expr) → Drafting (List Term)
  | [] => return []
  | ⟨_, value⟩ :: rest => do
    let t ←
      if value.isEllipsis then pure .ellipsis
      else if value.isConstant then pure (.literal value)
      else do
        let body ← nested (term options ids value)
        pure (.thunk ⟨← node ids, value, body⟩)
    return t :: (← lateArgs options ids rest)

/-- Formals, with bodies for the defaults. -/
def defaults (options : CompilerOptions) (ids : IdSource) :
    List (Formal Expr) → Drafting (List (Formal Thunk))
  | [] => return []
  | ⟨name, none⟩ :: rest => return ⟨name, none⟩ :: (← defaults options ids rest)
  | ⟨name, some value⟩ :: rest => do
    let body ← nested (term options ids value)
    let thunk : Thunk := ⟨← node ids, value, body⟩
    return ⟨name, some thunk⟩ :: (← defaults options ids rest)

end

/-! ## Whole bodies -/

/-- The body that evaluates an expression and returns its value. -/
def bodyOf (options : CompilerOptions) (ids : IdSource) (e : Expr) : Drafting Body :=
  nested (term options ids e)

/-- A function literal in flow form: the defaults first, in order, then the body. -/
def procedureOf (options : CompilerOptions) (ids : IdSource) (name : Option Symbol)
    (f : Function) : Drafting (Procedure Term) := do
  let formals ← defaults options ids f.formals
  let body ← bodyOf options ids f.body
  return ⟨name, formals, body⟩

end CallByNeed.Flow
