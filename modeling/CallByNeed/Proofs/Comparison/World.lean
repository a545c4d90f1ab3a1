import CallByNeed.Eval.Answer
import CallByNeed.Proofs.Eval.Runs
import Mathlib.Data.List.Forall2

/-!
# Comparing two runs

Two runs are compared on values, stores and evaluations. A `World` says what may differ: which code
counts as the same, whether the names of closures and the depth of calls agree, and which ways to
stop excuse whatever the other run does. Everything else is equal: environments and promises have
the same numbers in both runs, and hold the same up to code.

Some programs rely on names that are bound once and for all, in the global environment. A world
says which names are `pinned` there; its stores keep them bound to the functions they stand for. With
pinned names no expression gets hold of an assignment form as a value, except as the callee of a call
under its own name, and no value that an expression has is or holds a promise or a list of arguments.

An evaluation is compared with a family of evaluations that have larger and larger bounds
(`EvalRel`): whatever the first one gives without using up its bound, the others give from some
bound on.
-/

namespace CallByNeed

/-! ## Code -/

/-- What an evaluation may be of: a unit, or an expression as written. -/
inductive Code where
  | unit (u : CodeUnit)
  | expr (e : Expr)

namespace Code

/-- The task of evaluating code. -/
def task (env : EnvId) : Code → Task
  | unit u => .execute u env
  | expr e => .eval env e

/-- Code as what a promise stands for. -/
def suspend (env : EnvId) : Code → Suspension
  | unit u => .compiled u env
  | expr e => .interpreted e env

end Code

/-- What may differ between two runs. -/
structure World where
  /-- Code that counts as the same. -/
  code : Code → Code → Prop
  /-- Closures have the names of their code. -/
  named : Prop
  /-- Defects in the code may be met, by both runs at once. -/
  defects : Prop
  /-- Both runs are equally deep. -/
  deep : Prop
  /-- The first run may use up its bound. -/
  cut : Prop
  /-- Ways to stop that excuse what the other run does. -/
  dropped : EvalError → Prop
  /-- Some names are pinned. -/
  pins : Prop
  /-- The names that only the global environment binds, to the function of that name. -/
  pinned : Symbol → Prop
  /-- With pinned names, what `...` is bound to in an environment stays. -/
  steady : Prop := False
  /-- Only values of the first run say something about the second run. -/
  lax : Prop := False

namespace World

variable (W : World)

/-- The environment exists. Only pinned names depend on it. -/
def Valid (n : Nat) (env : EnvId) : Prop := W.pins → env < n

/-- The form may be had as a value. -/
def Loose (s : Special) : Prop := W.pins → s ≠ .assign ∧ s ≠ .loop

/-- The variable may be read as a value. -/
def Readable (name : Symbol) : Prop :=
  W.pins → name ≠ ⟨Special.assign.name⟩ ∧ name ≠ ⟨Special.loop.name⟩ ∧ name ≠ .ellipsis

/-- The name may be that of a formal. -/
def Bindable (name : Symbol) : Prop := W.pins → ¬ W.pinned name

/-- The variable may be assigned. -/
def Settable (name : Symbol) : Prop :=
  W.pins → ¬ W.pinned name ∧ (W.steady → name ≠ .ellipsis)

/-- The halt of the first run excuses the second one. Of the errors that the second run may stop with,
only that of nesting too deeply does. -/
def Excused : Halt → Prop
  | .error e => (W.dropped e ∧ ∃ limit, e = .depthExceeded limit) ∨ W.lax
  | .exhausted => W.cut
  | .abort => W.lax

/-- Both runs stop in the same way. -/
def HaltRel (h h' : Halt) : Prop :=
  (h = h' ∧ (h.IsInternal → W.defects)) ∨ (W.defects ∧ h.IsInternal ∧ h'.IsInternal)

end World

/-! ## Values -/

/-- Formals with the same name, and defaults that count as the same. -/
structure FormalRel (W : World) (f f' : Formal CodeUnit) : Prop where
  name : f.name = f'.name
  bindable : W.Bindable f.name
  default : Option.Rel (fun u u' => W.code (.unit u) (.unit u')) f.default f'.default

/-- Function literals that count as the same. -/
structure FunctionRel (W : World) (f f' : FunctionUnit) : Prop where
  name : W.named → f.name = f'.name
  formals : List.Forall₂ (FormalRel W) f.formals f'.formals
  body : W.code (.unit f.body) (.unit f'.body)

mutual

/-- The same value of an expression up to code, when there are `n` environments. -/
inductive ValueRel (W : World) (n : Nat) : Value → Value → Prop
  | null : ValueRel W n .null .null
  | logical (b : Bool) : ValueRel W n (.logical b) (.logical b)
  | int (i : Int32) : ValueRel W n (.int i) (.int i)
  | double (x : Float) : ValueRel W n (.double x) (.double x)
  | str (s : String) : ValueRel W n (.str s) (.str s)
  | vector {vs vs' : List Value} (h : ValuesRel W n vs vs') :
    ValueRel W n (.vector vs) (.vector vs')
  | symbol (s : Symbol) : ValueRel W n (.symbol s) (.symbol s)
  | language (e : Expr) : ValueRel W n (.language e) (.language e)
  | promise (hp : ¬ W.pins) (p : PromiseId) : ValueRel W n (.promise p) (.promise p)
  | closure {f f' : FunctionUnit} {env : EnvId} (hf : FunctionRel W f f') (he : W.Valid n env) :
    ValueRel W n (.closure f env) (.closure f' env)
  | builtin (b : Builtin) : ValueRel W n (.builtin b) (.builtin b)
  | special {s : Special} (h : W.Loose s) : ValueRel W n (.special s) (.special s)
  | dots (hp : ¬ W.pins) {as as' : ArgList} (h : ArgsRel W n as as') :
    ValueRel W n (.dots as) (.dots as')

/-- The same values one by one. -/
inductive ValuesRel (W : World) (n : Nat) : List Value → List Value → Prop
  | nil : ValuesRel W n [] []
  | cons {v v' : Value} {vs vs' : List Value} (h : ValueRel W n v v')
    (hs : ValuesRel W n vs vs') : ValuesRel W n (v :: vs) (v' :: vs')

/-- The same argument or variable: a value, or a promise of one. -/
inductive BoundRel (W : World) (n : Nat) : Value → Value → Prop
  | value {v v' : Value} (h : ValueRel W n v v') : BoundRel W n v v'
  | promise (p : PromiseId) : BoundRel W n (.promise p) (.promise p)

/-- The same arguments one by one: with the same names, the same values, and the same texts. -/
inductive ArgsRel (W : World) (n : Nat) : ArgList → ArgList → Prop
  | nil : ArgsRel W n [] []
  | cons {name : Option Symbol} {v v' : Value} {as as' : ArgList} (h : BoundRel W n v v')
    (ht : v.text = v'.text) (hs : ArgsRel W n as as') :
    ArgsRel W n (⟨name, v⟩ :: as) (⟨name, v'⟩ :: as')

end

/-! ## Promises -/

/-- Promises that stand for the same. -/
inductive SuspensionRel (W : World) (n : Nat) : Suspension → Suspension → Prop
  | reading {name : Symbol} {env : EnvId} (hr : W.Readable name) (he : W.Valid n env) :
    SuspensionRel W n (.variable name env) (.variable name env)
  | code {c c' : Code} {env : EnvId} (hc : W.code c c') (he : W.Valid n env) :
    SuspensionRel W n (c.suspend env) (c'.suspend env)
  | missing (name : Symbol) : SuspensionRel W n (.missing name) (.missing name)

/-- Promises that are equally far. -/
inductive StatusRel (W : World) (n : Nat) : Status → Status → Prop
  | pending {p p' : Suspension} (h : SuspensionRel W n p p') :
    StatusRel W n (.pending p) (.pending p')
  | forcing {p p' : Suspension} (h : SuspensionRel W n p p') :
    StatusRel W n (.forcing p) (.forcing p')
  | forced {v v' : Value} (h : ValueRel W n v v') : StatusRel W n (.forced v) (.forced v')

/-- The same promise, begun equally often. -/
structure PromiseRel (W : World) (n : Nat) (p p' : Promise) : Prop where
  status : StatusRel W n p.status p'.status
  evaluations : p.evaluations = p'.evaluations

/-! ## Stores -/

/-- Arrays that are related entry by entry. -/
structure ArrayRel {α β : Type} (R : α → β → Prop) (as : Array α) (bs : Array β) : Prop where
  size : as.size = bs.size
  entry : ∀ (i : Nat) a b, as[i]? = some a → bs[i]? = some b → R a b

/-- What a variable of some name is bound to in both runs. -/
inductive BindingRel (W : World) (n : Nat) : Symbol → Value → Value → Prop
  | bound {name : Symbol} {v v' : Value} (h : BoundRel W n v v') : BindingRel W n name v v'
  /-- A form that may not be had as a value, under its own name. -/
  | form {s : Special} (hs : ¬ W.Loose s) : BindingRel W n ⟨s.name⟩ (.special s) (.special s)
  | dots {as as' : ArgList} (h : ArgsRel W n as as') :
    BindingRel W n .ellipsis (.dots as) (.dots as')

/-- The same variable. -/
structure EntryRel (W : World) (n : Nat) (x x' : Symbol × Value) : Prop where
  name : x.1 = x'.1
  value : BindingRel W n x.1 x.2 x'.2

/-- The same environment: the same variables in the same order, and the same environments around. -/
structure EnvironmentRel (W : World) (n : Nat) (E E' : Environment) : Prop where
  outer : E.outer = E'.outer
  vars : List.Forall₂ (EntryRel W n) E.vars E'.vars

/-- The pinned names are bound in the global environment only, which lies around every other one. -/
structure Store.Pinned (W : World) (s : Store) : Prop where
  exists_global : 0 < s.environments.size
  global : ∀ name, W.pinned name → s.local? globalEnv name = Store.globals.lookup name
  inner : ∀ env name, env ≠ globalEnv → W.pinned name → s.local? env name = none
  around : ∀ env, env < s.environments.size → globalEnv ∈ s.chain env
  within : ∀ env, env < s.environments.size → ∀ e ∈ s.chain env, e < s.environments.size

/-- The same store. The journal does not count. -/
structure StoreRel (W : World) (s t : Store) : Prop where
  environments : ArrayRel (EnvironmentRel W s.environments.size) s.environments t.environments
  promises : ArrayRel (PromiseRel W s.environments.size) s.promises t.promises
  depth : W.deep → s.depth = t.depth
  left : W.pins → s.Pinned W
  right : W.pins → t.Pinned W

/-- What an evaluation leaves as it is: environments stay where they are, and so does what `...` is
bound to in them. -/
structure Store.Grows (W : World) (s s' : Store) : Prop where
  size : s.environments.size ≤ s'.environments.size
  chain : ∀ env, env < s.environments.size → s'.chain env = s.chain env
  dots : W.pins → W.steady → ∀ env, env < s.environments.size →
    s'.local? env .ellipsis = s.local? env .ellipsis

/-! ## Evaluations -/

/-- The evaluations with large bounds all give this result. -/
def Settles {β : Type} (B : Nat → Eval β) (t : Store) (r : Result β) : Prop :=
  ∃ m, ∀ k ≥ m, B k t = r

/-- Results that count as the same, of evaluations begun in `s` and `t`. -/
inductive ResultRel {α β : Type} (W : World) (R : Nat → α → β → Prop) (s t : Store) :
    Result α → Result β → Prop
  | ok {a : α} {b : β} {s' t' : Store} (h : R s'.environments.size a b) (hst : StoreRel W s' t')
    (hs : s.Grows W s') (ht : t.Grows W t') : ResultRel W R s t (.ok a s') (.ok b t')
  | error {h h' : Halt} {s' t' : Store} (hh : W.HaltRel h h') (hst : StoreRel W s' t')
    (hs : s.Grows W s') (ht : t.Grows W t') : ResultRel W R s t (.error h s') (.error h' t')

/-- What an evaluation gives, compared with what others with larger and larger bounds give. -/
inductive Matches {α β : Type} (W : World) (R : Nat → α → β → Prop) (s t : Store) (r : Result α)
    (B : Nat → Eval β) : Prop
  | excused {h : Halt} {s' : Store} (hr : r = .error h s') (hh : W.Excused h)
  | dropped {e : EvalError} {t' : Store} (hB : Settles B t (.error (.error e) t'))
    (he : W.dropped e)
  | same {r' : Result β} (hB : Settles B t r') (hr : ResultRel W R s t r r')

/-- An evaluation, and evaluations with larger and larger bounds, that count as the same once there
are `n` environments. -/
def EvalRel {α β : Type} (W : World) (n : Nat) (R : Nat → α → β → Prop) (A : Eval α)
    (B : Nat → Eval β) : Prop :=
  ∀ s t, StoreRel W s t → n ≤ s.environments.size → Matches W R s t (A s) B

/-! ## Hosts -/

/-- The same task, when there are `n` environments. -/
inductive TaskRel (W : World) (n : Nat) : Task → Task → Prop
  | force (p : PromiseId) : TaskRel W n (.force p) (.force p)
  | code {c c' : Code} {env : EnvId} (hc : W.code c c') (he : W.Valid n env) :
    TaskRel W n (c.task env) (c'.task env)

/-- A host, and hosts with larger and larger bounds, that do the same tasks alike. -/
def HostRel (W : World) (H : Host) (H' : Nat → Host) : Prop :=
  ∀ n τ τ', TaskRel W n τ τ' → EvalRel W n (ValueRel W) (H τ) fun k => H' k τ'

end CallByNeed
