import CallByNeed.Eval.Task

/-!
# Special forms

A special form receives the call as written and the environment of the caller, and decides itself
what to evaluate. Names of arguments count for nothing; operands beyond those it wants are not
looked at.
-/

namespace CallByNeed

namespace Special

/-- An operand of a special form, from zero. -/
def operand (s : Special) (call : Call) (index : Nat) : Eval Expr :=
  match call.arg? index with
  | some e => pure e
  | none => Eval.fail (.argumentCount call.text (.missingOperand s.name (index + 1)))

/-- The name that an assignment is to: a symbol or a text. -/
def assignmentTarget : Expr → Eval Symbol
  | .symbol s => pure s
  | .str s => pure ⟨s⟩
  | _ => Eval.fail (.primitive assign.name .assignmentTarget)

/-- Evaluates arguments in order; the value is the last one. -/
def sequence (host : Host) (env : EnvId) (last : Value) : List (Arg Expr) → Eval Value
  | [] => pure last
  | a :: rest => do
    let v ← host (.eval env a.value)
    sequence host env v rest

/-- Evaluates the body for `count` elements of a sequence, from one position on, with the variable
bound to each. -/
def iterate (host : Host) (env : EnvId) (name : Symbol) (values : Value) (body : Expr) :
    Nat → Nat → Eval Unit
  | 0, _ => pure ()
  | count + 1, index => do
    match Value.int32? index with
    | none => Eval.fail (.primitive loop.name .sequenceTooLong)
    | some i => do
      let v ← Eval.ofExcept (values.elementAt i)
      Eval.setVariable env name v
      let _ ← host (.eval env body)
      iterate host env name values body count (index + 1)

/-- The value of a call of a special form. -/
def invoke (host : Host) (env : EnvId) (call : Call) : Special → Eval Value
  | quote => do
    let e ← quote.operand call 0
    return .ofExpr e
  | cond => do
    let condition ← host (.eval env (← cond.operand call 0))
    if ← Eval.ofExcept condition.truthy then
      host (.eval env (← cond.operand call 1))
    else
      match call.arg? 2 with
      | some no => host (.eval env no)
      | none => return .null
  | block => sequence host env .null call.args
  | assign => do
    let name ← assignmentTarget (← assign.operand call 0)
    let v ← host (.eval env (← assign.operand call 1))
    Eval.setVariable env name v
    return v
  | loop => do
    match ← loop.operand call 0 with
    | .symbol name => do
      let values ← host (.eval env (← loop.operand call 1))
      let body ← loop.operand call 2
      iterate host env name values body values.length 0
      return .null
    | _ => Eval.fail (.primitive loop.name .loopVariable)

end Special

end CallByNeed
