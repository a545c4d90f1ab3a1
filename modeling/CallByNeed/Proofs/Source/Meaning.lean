import CallByNeed.Proofs.Code.Within
import CallByNeed.Proofs.Flow.Drafted
import CallByNeed.Proofs.Flow.Semantics
import Mathlib.Data.List.Forall2

/-!
# What compiled expressions mean

The meaning of an expression that is compiled, said along the expression: without lines, labels or
slots (`Means`). An expression has one meaning for each choice of the units that its late arguments
and function literals are compiled to, so that `Means` is a relation; everything else about the
meaning is determined.

With inlined control flow the shapes that become branches mean what the branches do, and everything
else is a call.
-/

namespace CallByNeed

/-! ## Compiled code -/

/-- The body was drafted for the expression. -/
def DraftedBody (o : CompilerOptions) (e : Expr) (b : Flow.Body) : Prop :=
  ∃ lo hi t lines, Flow.Drafted o e lo t lines hi ∧ b = Flow.returning lines t

/-- The unit was compiled from the expression. -/
def CompiledFrom (o : CompilerOptions) (e : Expr) (u : CodeUnit) : Prop :=
  ∃ b, DraftedBody o e b ∧ Compiles o b u

/-- The formal was compiled from one of the source. -/
structure CompiledFormal (o : CompilerOptions) (x : Formal Expr) (y : Formal CodeUnit) : Prop where
  name : y.name = x.name
  default : Option.Rel (CompiledFrom o) x.default y.default

/-- The function unit was compiled from the function literal. -/
structure CompiledLiteral (o : CompilerOptions) (f : Function) (u : FunctionUnit) : Prop where
  formals : List.Forall₂ (CompiledFormal o) f.formals u.formals
  body : CompiledFrom o f.body u.body

/-! ## Arguments -/

/-- How an argument of a compiled call is passed. -/
inductive Passed where
  /-- What is bound to `...`. -/
  | ellipsis
  | literal (e : Expr)
  /-- A bare name. -/
  | reading (name : Symbol)
  | unit (u : CodeUnit)

/-- How the compiler passes an argument. -/
inductive Passes (o : CompilerOptions) : Expr → Passed → Prop
  | ellipsis {e : Expr} (h : e.isEllipsis = true) : Passes o e .ellipsis
  | literal {e : Expr} (h : e.isConstant = true) : Passes o e (.literal e)
  | reading {name : Symbol} (h : name.isEllipsis = false) : Passes o (.symbol name) (.reading name)
  | unit {e : Expr} {u : CodeUnit} (hconstant : e.isConstant = false) (hname : e.symbol? = none)
    (h : CompiledFrom o e u) : Passes o e (.unit u)

namespace Passed

/-- The value of an argument that is evaluated now, with `NULL` in the place of `...`. -/
def now (limit : Nat) (H : Host) (env : EnvId) : Passed → Eval Value
  | ellipsis => pure .null
  | literal e => pure (.ofExpr e)
  | reading name => do H.force (← Eval.findVariable env name)
  | unit u => H.executeNested limit u env

/-- What an argument that is evaluated late adds to the arguments of a closure. -/
def later (env : EnvId) (name : Option Symbol) : Passed → Eval ArgList
  | ellipsis => Eval.findDots env
  | literal e => pure [⟨name, .ofExpr e⟩]
  | reading x => do return [⟨name, ← Eval.promise (.variable x env)⟩]
  | unit u => do return [⟨name, ← Eval.promise (.compiled u env)⟩]

end Passed

/-- Where the first `...` stands among the arguments. -/
def Call.ellipsisIndex? (c : Call) : Option Nat := c.args.findIdx? fun a => a.value.isEllipsis

/-- How often `...` stands among the arguments. -/
def Call.ellipsisCount (c : Call) : Nat := c.args.countP fun a => a.value.isEllipsis

/-! ## Meanings -/

namespace Meaning

/-- The value of a variable. -/
def lookup (H : Host) (env : EnvId) (name : Symbol) : Eval Value := do
  H.force (← Eval.findVariable env name)

/-- One of two evaluations. -/
def branch (condition yes no : Eval Value) : Eval Value := do
  let v ← condition
  if ← Eval.ofExcept v.truthy then yes else no

/-- An evaluation for each of `count` elements of a sequence, from a position on. -/
def elements (env : EnvId) (name : Symbol) (v : Value) (body : Eval Value) : Nat → Nat → Eval Unit
  | 0, _ => pure ()
  | count + 1, index => do
    let x ← Eval.ofExcept (v.elementAt (Int32.ofNat index))
    Eval.setVariable env name x
    let _ ← body
    elements env name v body count (index + 1)

/-- An evaluation for each element of a sequence. -/
def loop (env : EnvId) (name : Symbol) (sequence body : Eval Value) : Eval Value := do
  let v ← sequence
  let n ← Eval.ofExcept (Builtin.lengthOf v)
  elements env name v body n.toInt.toNat 0
  return .null

/-- An assignment, whose value is the value assigned. -/
def assign (env : EnvId) (name : Symbol) (value : Eval Value) : Eval Value := do
  let v ← value
  Eval.setVariable env name v
  return v

/-- The names and values that a builtin gets. Those of `...` come last in the order of evaluation,
wherever they stand. -/
def gather (H : Host) (env : EnvId) (call : Call) (values : Eval (List Value)) :
    Eval (List (Option Symbol) × List Value) :=
  match call.ellipsisIndex? with
  | none => do return (call.args.map Arg.name, ← values)
  | some position => do
    let dots ← Eval.findDots env
    let vs ← values
    let entries ← dots.mapM fun d => H.force d.value
    return (Flow.splicedAt (call.args.map Arg.name) position (dots.map Arg.name),
      Flow.splicedAt vs position entries)

/-- A call of a builtin. -/
def builtin (H : Host) (env : EnvId) (call : Call) (values : Eval (List Value)) (b : Builtin) :
    Eval Value := do
  let (names, values) ← gather H env call values
  Flow.ofResult (b.invoke call names values)

/-- A call of a function. -/
def apply (limit : Nat) (H : Host) (env : EnvId) (call : Call) (passed : List Passed) :
    Value → Eval Value
  | .builtin b => builtin H env call (passed.mapM (Passed.now limit H env)) b
  | .closure unit closureEnv => do
    let args ← (call.args.zip passed).mapM fun a => a.2.later env a.1.name
    applyClosure limit H unit closureEnv call args.flatten
  | .special s => s.invoke H env call
  | _ => Eval.fail (.internal (.unassignedSlot 0))

/-- The function that a value must be. -/
def callable (H : Host) (call : Call) (v : Value) : Eval Value := do
  let v ← H.force v
  if v.category?.isSome then return v else Eval.fail (.notCallable call.text)

end Meaning

open Meaning

mutual

/-- What an expression that is compiled with some options means in an environment, for each host. -/
inductive Means (o : CompilerOptions) (limit : Nat) (env : EnvId) :
    Expr → (Host → Eval Value) → Prop
  | reading {name : Symbol} (h : name.isEllipsis = false) :
    Means o limit env (.symbol name) fun H => Meaning.lookup H env name
  | literal {e : Expr} (h : e.isConstant = true) :
    Means o limit env e fun _ => pure (.ofExpr e)
  | closure {f : Function} {u : FunctionUnit} (h : CompiledLiteral o f u) :
    Means o limit env (.function f.formals f.body) fun _ => pure (.closure u env)
  | whether {s : Symbol} {c y : Expr} {C Y : Host → Eval Value}
    (ho : o.inlineControlFlow = true) (hs : s = ⟨Special.cond.name⟩)
    (hc : Means o limit env c C) (hy : Means o limit env y Y) :
    Means o limit env (.call (.symbol s) [⟨none, c⟩, ⟨none, y⟩])
      fun H => branch (C H) (Y H) (pure .null)
  | choice {s : Symbol} {c y n : Expr} {C Y N : Host → Eval Value}
    (ho : o.inlineControlFlow = true) (hs : s = ⟨Special.cond.name⟩)
    (hc : Means o limit env c C) (hy : Means o limit env y Y) (hn : Means o limit env n N) :
    Means o limit env (.call (.symbol s) [⟨none, c⟩, ⟨none, y⟩, ⟨none, n⟩])
      fun H => branch (C H) (Y H) (N H)
  | loop {s name : Symbol} {q b : Expr} {Q B : Host → Eval Value}
    (ho : o.inlineControlFlow = true) (hs : s = ⟨Special.loop.name⟩)
    (hname : name.isEllipsis = false) (hq : Means o limit env q Q) (hb : Means o limit env b B) :
    Means o limit env (.call (.symbol s) [⟨none, .symbol name⟩, ⟨none, q⟩, ⟨none, b⟩])
      fun H => loop env name (Q H) (B H)
  | block {s : Symbol} {args : List (Arg Expr)} {A : Host → Eval Value}
    (ho : o.inlineControlFlow = true) (hs : s = ⟨Special.block.name⟩)
    (hargs : ∀ a ∈ args, a.name = none) (h : MeansSteps o limit env args A) :
    Means o limit env (.call (.symbol s) args) A
  | assignment {s name : Symbol} {e : Expr} {A : Host → Eval Value}
    (ho : o.inlineControlFlow = true) (hs : s = ⟨Special.assign.name⟩)
    (hname : name.isEllipsis = false) (h : Means o limit env e A) :
    Means o limit env (.call (.symbol s) [⟨none, .symbol name⟩, ⟨none, e⟩])
      fun H => assign env name (A H)
  | primitive {s : Symbol} {b : Builtin} {args : List (Arg Expr)} {A : Host → Eval (List Value)}
    (hplain : ¬ o.Inlines (.symbol s) args) (hs : o.isStaticPrimitive s.name = true)
    (hb : Builtin.ofName? s.name = some b)
    (hdots : (Call.mk (.symbol s) args).ellipsisCount ≤ 1)
    (h : MeansNow o limit env args A) :
    Means o limit env (.call (.symbol s) args) fun H => do
      let values ← A H
      builtin H env ⟨.symbol s, args⟩ (pure values) b
  | named {s : Symbol} {args : List (Arg Expr)} {passed : List Passed}
    (hplain : ¬ o.Inlines (.symbol s) args) (hs : s.isEllipsis = false)
    (hdynamic : o.isStaticPrimitive s.name = false)
    (hdots : (Call.mk (.symbol s) args).ellipsisCount ≤ 1)
    (h : List.Forall₂ (Passes o) (args.map Arg.value) passed) :
    Means o limit env (.call (.symbol s) args) fun H => do
      let f ← H.findFunction env s
      apply limit H env ⟨.symbol s, args⟩ passed f
  | computed {callee : Expr} {args : List (Arg Expr)} {passed : List Passed}
    {C : Host → Eval Value} (hcallee : callee.symbol? = none)
    (hdots : (Call.mk callee args).ellipsisCount ≤ 1)
    (hc : Means o limit env callee C)
    (h : List.Forall₂ (Passes o) (args.map Arg.value) passed) :
    Means o limit env (.call callee args) fun H => do
      let v ← C H
      let f ← callable H ⟨callee, args⟩ v
      apply limit H env ⟨callee, args⟩ passed f

/-- What the steps of a block mean. -/
inductive MeansSteps (o : CompilerOptions) (limit : Nat) (env : EnvId) :
    List (Arg Expr) → (Host → Eval Value) → Prop
  | nil : MeansSteps o limit env [] fun _ => pure .null
  | last {a : Arg Expr} {A : Host → Eval Value} (h : Means o limit env a.value A) :
    MeansSteps o limit env [a] A
  | step {a a' : Arg Expr} {rest : List (Arg Expr)} {A B : Host → Eval Value}
    (h : Means o limit env a.value A) (hrest : MeansSteps o limit env (a' :: rest) B) :
    MeansSteps o limit env (a :: a' :: rest) fun H => do
      let _ ← A H
      B H

/-- What arguments mean that are evaluated at once, with `NULL` in the place of `...`. -/
inductive MeansNow (o : CompilerOptions) (limit : Nat) (env : EnvId) :
    List (Arg Expr) → (Host → Eval (List Value)) → Prop
  | nil : MeansNow o limit env [] fun _ => pure []
  | ellipsis {a : Arg Expr} {rest : List (Arg Expr)} {B : Host → Eval (List Value)}
    (ha : a.value.isEllipsis = true) (hrest : MeansNow o limit env rest B) :
    MeansNow o limit env (a :: rest) fun H => do
      let vs ← B H
      return .null :: vs
  | value {a : Arg Expr} {rest : List (Arg Expr)} {A : Host → Eval Value}
    {B : Host → Eval (List Value)} (ha : a.value.isEllipsis = false)
    (h : Means o limit env a.value A) (hrest : MeansNow o limit env rest B) :
    MeansNow o limit env (a :: rest) fun H => do
      let v ← A H
      let vs ← B H
      return v :: vs

end

end CallByNeed
