import CallByNeed.Proofs.Eval.Tracks

/-!
# Layouts of the operand stack

What is known of the operand stack from the code alone. A `Layout` lists the parts of the stack, the
top first; most parts are one word of a kind. Three say more: which categories a function may still
have, that the same function lies there twice, and that a native integer tells the category of the
function below it. One part is no word at all: the note that the work slot has been stored in.

`Effect` says what an instruction finds on top of the stack and what it leaves, provided its operands
refer to what it expects, and `Rule` adds where execution may go on. No part of either looks at a
machine.
-/

namespace CallByNeed

/-! ## Parts of the stack -/

/-- A part of the operand stack. -/
inductive Item where
  | int
  | value
  /-- A value that is a list of arguments. -/
  | dots
  /-- A function of one of these categories. -/
  | function (cs : List Category)
  /-- The same function twice. -/
  | twice (cs : List Category)
  /-- A function of one of these categories, and above it a native integer that says whether it is
  of the category `c`. -/
  | test (c : Category) (cs : List Category)
  | context
  | env
  | call
  | args
  /-- An array of names, with its size if that is known. -/
  | names (size : Option Nat)
  /-- An array of values, with its size if that is known. -/
  | values (size : Option Nat)
  /-- No word: the work slot has been stored in. -/
  | parked
deriving DecidableEq

namespace Item

/-- The kinds of the words that the part consists of. -/
def kinds : Item → List String
  | int => ["int"]
  | value | dots | function _ => ["value"]
  | twice _ => ["value", "value"]
  | test .. => ["int", "value"]
  | context => ["context"]
  | env => ["environment"]
  | call => ["call"]
  | args => ["argument list"]
  | names _ => ["names"]
  | values _ => ["values"]
  | parked => []

/-- The words are such a part, where the work slot holds `work`. -/
def Covers (work : Option ArgList) : Item → List Word → Prop
  | int, ws => ∃ n, ws = [.int n]
  | value, ws => ∃ v, ws = [.value v]
  | dots, ws => ∃ ds, ws = [.value (.dots ds)]
  | function cs, ws => ∃ f, (∃ c ∈ cs, f.category? = some c) ∧ ws = [.value f]
  | twice cs, ws => ∃ f, (∃ c ∈ cs, f.category? = some c) ∧ ws = [.value f, .value f]
  | test c cs, ws => ∃ f, (∃ d ∈ cs, f.category? = some d) ∧
    ws = [.ofBool (f.category? = some c), .value f]
  | context, ws => ws = [.context]
  | env, ws => ∃ e, ws = [.env e]
  | call, ws => ∃ c, ws = [.call c]
  | args, ws => ∃ as : ArgList, ws = [.args as.toArray]
  | names size, ws => ∃ ns : List (Option Symbol), (∀ k ∈ size, ns.length = k) ∧
    ws = [.names ns.toArray]
  | values size, ws => ∃ vs : List Value, (∀ k ∈ size, vs.length = k) ∧ ws = [.values vs.toArray]
  | parked, ws => work.isSome ∧ ws = []

/-- The words of a part have its kinds. -/
lemma Covers.kinds {work : Option ArgList} {x : Item} {ws : List Word} (h : x.Covers work ws) :
    ws.map Word.kind = x.kinds := by
  cases x with
  | int | value | dots | env | call | args =>
    obtain ⟨_, rfl⟩ := h
    rfl
  | function | twice | test | names | values =>
    obtain ⟨_, _, rfl⟩ := h
    rfl
  | context =>
    obtain rfl := h
    rfl
  | parked =>
    obtain ⟨_, rfl⟩ := h
    rfl

/-- Storing in the work slot again changes no part of the stack. -/
lemma Covers.mono {work work' : Option ArgList} {x : Item} {ws : List Word}
    (h : x.Covers work ws) (hw : work.isSome → work'.isSome) : x.Covers work' ws := by
  cases x with
  | parked => exact h.imp_left hw
  | _ => exact h

end Item

/-- The parts of an operand stack, the top first. -/
abbrev Layout := List Item

namespace Layout

/-- The kinds of all words. -/
def kinds (Γ : Layout) : List String := Γ.flatMap Item.kinds

/-- The words consist of these parts. -/
def Covers (work : Option ArgList) : Layout → List Word → Prop
  | [], st => st = []
  | x :: Γ, st => ∃ ws rest, x.Covers work ws ∧ Covers work Γ rest ∧ st = ws ++ rest

variable {work work' : Option ArgList} {Γ Δ : Layout} {st ws : List Word}

/-- The words of a stack have the kinds of its layout. -/
lemma Covers.kinds (h : Covers work Γ st) : st.map Word.kind = Γ.kinds := by
  induction Γ generalizing st with
  | nil =>
    obtain rfl := h
    rfl
  | cons x Γ ih =>
    obtain ⟨ws, rest, hx, hΓ, rfl⟩ := h
    rw [List.map_append, hx.kinds, ih hΓ, Layout.kinds, Layout.kinds, List.flatMap_cons]

lemma Covers.mono (h : Covers work Γ st) (hw : work.isSome → work'.isSome) :
    Covers work' Γ st := by
  induction Γ generalizing st with
  | nil => exact h
  | cons x Γ ih =>
    obtain ⟨ws, rest, hx, hΓ, rfl⟩ := h
    exact ⟨ws, rest, hx.mono hw, ih hΓ, rfl⟩

/-- One stack on top of another one. -/
lemma Covers.append (h : Covers work Γ ws) (h' : Covers work Δ st) :
    Covers work (Γ ++ Δ) (ws ++ st) := by
  induction Γ generalizing ws with
  | nil =>
    obtain rfl := h
    exact h'
  | cons x Γ ih =>
    obtain ⟨top, rest, hx, hΓ, rfl⟩ := h
    exact ⟨top, rest ++ st, hx, ih hΓ, List.append_assoc ..⟩

/-- The upper and the lower part of a stack. -/
lemma Covers.split (h : Covers work (Γ ++ Δ) st) :
    ∃ ws rest, Covers work Γ ws ∧ Covers work Δ rest ∧ st = ws ++ rest := by
  induction Γ generalizing st with
  | nil => exact ⟨[], st, rfl, h, rfl⟩
  | cons x Γ ih =>
    obtain ⟨top, _, hx, h, rfl⟩ := h
    obtain ⟨ws, rest, hΓ, hΔ, rfl⟩ := ih h
    exact ⟨top ++ ws, rest, ⟨top, ws, hx, hΓ, rfl⟩, hΔ, (List.append_assoc ..).symm⟩

/-- One part. -/
lemma Covers.one {x : Item} (h : x.Covers work ws) : Covers work [x] ws :=
  ⟨ws, [], h, rfl, (List.append_nil ws).symm⟩

end Layout

/-! ## Instructions -/

/-- What the arrays of a call of a builtin and the part below its frame are: both arrays of one size
and nothing, or of unknown sizes where `...` was spliced, which leaves the note about the work
slot. -/
inductive Counted : Option Nat → Layout → Prop
  | fixed (k : Nat) : Counted (some k) []
  | spliced : Counted none [.parked]

/-- What an instruction that does not transfer control finds on top of the stack and what it leaves,
in a unit with these slots. -/
inductive Effect (z : Slots) (u : CodeUnit) : Instruction → Layout → Layout → Prop
  | literal {n : Nat} {e : Expr} (hc : u.constants[n]? = some (.literal e)) :
    Effect z u ⟨.constant, [n]⟩ [] [.value]
  | site {n : Nat} {c : Call} (hc : u.constants[n]? = some (.call c)) :
    Effect z u ⟨.constant, [n]⟩ [] [.call]
  | int (k : Int32) : Effect z u ⟨.int, [intOperand k]⟩ [] [.int]
  | loadContext : Effect z u ⟨.load, [contextSlot]⟩ [] [.context]
  | loadEnvironment : Effect z u ⟨.load, [environmentSlot]⟩ [] [.env]
  /-- The work slot is read only after it was stored in. -/
  | loadWork (Γ : Layout) :
    Effect z u ⟨.load, [workSlot]⟩ (Γ ++ [.parked]) (.dots :: (Γ ++ [.parked]))
  | storeWork : Effect z u ⟨.store, [workSlot]⟩ [.dots] [.parked]
  | load {key : Flow.SlotKey} {n : Nat} (hl : z.lookup? key = some ⟨n, .value⟩) :
    Effect z u ⟨.load, [n]⟩ [] [.value]
  | loadInt {key : Flow.SlotKey} {n : Nat} (hl : z.lookup? key = some ⟨n, .int⟩) :
    Effect z u ⟨.loadInt, [n]⟩ [] [.int]
  | store {key : Flow.SlotKey} {n : Nat} (hl : z.lookup? key = some ⟨n, .value⟩) :
    Effect z u ⟨.store, [n]⟩ [.value] []
  | storeInt {key : Flow.SlotKey} {n : Nat} (hl : z.lookup? key = some ⟨n, .int⟩) :
    Effect z u ⟨.storeInt, [n]⟩ [.int] []
  | incLocal {key : Flow.SlotKey} {n : Nat} (hl : z.lookup? key = some ⟨n, .int⟩) :
    Effect z u ⟨.incLocal, [n]⟩ [] []
  | dup (cs : List Category) : Effect z u ⟨.dup, []⟩ [.function cs] [.twice cs]
  | isBuiltin (cs : List Category) : Effect z u ⟨.isBuiltin, []⟩ [.twice cs] [.test .builtin cs]
  | isClosure (cs : List Category) : Effect z u ⟨.isClosure, []⟩ [.twice cs] [.test .closure cs]
  | castBuiltin :
    Effect z u ⟨.castBuiltin, []⟩ [.function [.builtin]] [.function [.builtin]]
  | castClosure :
    Effect z u ⟨.castClosure, []⟩ [.function [.closure]] [.function [.closure]]
  | popInt : Effect z u ⟨.pop, []⟩ [.int] []
  | popValue : Effect z u ⟨.pop, []⟩ [.value] []
  | findVariable {n : Nat} {s : Symbol} (hc : u.constants[n]? = some (.name s)) :
    Effect z u ⟨.findVariable, [n]⟩ [] [.value]
  | findFunction {n : Nat} {s : Symbol} (hc : u.constants[n]? = some (.name s)) :
    Effect z u ⟨.findFunction, [n]⟩ [] [.function [.builtin, .closure, .special]]
  | setVariable {n : Nat} {s : Symbol} (hc : u.constants[n]? = some (.name s)) :
    Effect z u ⟨.setVariable, [n]⟩ [.value] []
  | force : Effect z u ⟨.force, []⟩ [.value] [.value]
  | checkFunction {n : Nat} {c : Call} (hc : u.constants[n]? = some (.call c)) :
    Effect z u ⟨.checkFunction, [n]⟩ [.value] [.function [.builtin, .closure, .special]]
  | applySpecial :
    Effect z u ⟨.applySpecial, []⟩ [.call, .env, .context, .function [.special]] [.value]
  | newArgList : Effect z u ⟨.newArgList, []⟩ [] [.args]
  | argAdd : Effect z u ⟨.argAdd, []⟩ [.value, .args] [.args]
  | argAddNamed {n : Nat} {s : Symbol} (hc : u.constants[n]? = some (.name s)) :
    Effect z u ⟨.argAddNamed, [n]⟩ [.value, .args] [.args]
  | argAddAll : Effect z u ⟨.argAddAll, []⟩ [.dots, .args] [.args]
  | applyClosure :
    Effect z u ⟨.applyClosure, []⟩ [.args, .call, .context, .function [.closure]] [.value]
  | makeVariablePromise {n : Nat} {s : Symbol} (hc : u.constants[n]? = some (.name s)) :
    Effect z u ⟨.makeVariablePromise, [n]⟩ [.env] [.value]
  | makeThunk {n : Nat} {t : CodeUnit} (ht : u.thunks[n]? = some t) :
    Effect z u ⟨.makeThunk, [n]⟩ [.env, .context] [.value]
  | evalThunk {n : Nat} {t : CodeUnit} (ht : u.thunks[n]? = some t) :
    Effect z u ⟨.evalThunk, [n]⟩ [.env, .context] [.value]
  | loadEllipsis : Effect z u ⟨.loadEllipsis, []⟩ [] [.dots]
  | newNames (k : Nat) : Effect z u ⟨.newNames, [k]⟩ [] [.names (some k)]
  | nameAt {n i k : Nat} {s : Symbol} (hc : u.constants[i]? = some (.name s)) (hn : n < k) :
    Effect z u ⟨.nameAt, [n, i]⟩ [.names (some k)] [.names (some k)]
  | spliceNames {n k : Nat} (hn : n < k) :
    Effect z u ⟨.spliceNames, [n]⟩ [.dots, .names (some k)] [.names none]
  | newValues (k : Nat) : Effect z u ⟨.newValues, [k]⟩ [] [.values (some k)]
  | valueAt {n k : Nat} (hn : n < k) :
    Effect z u ⟨.valueAt, [n]⟩ [.value, .values (some k)] [.values (some k)]
  | spliceValues {n k : Nat} (hn : n < k) :
    Effect z u ⟨.spliceValues, [n]⟩ [.dots, .values (some k)] [.values none]
  /-- The note that the work slot has been stored in goes with the call that needed it. -/
  | applyBuiltin {size : Option Nat} {Γ : Layout} (hΓ : Counted size Γ) :
    Effect z u ⟨.applyBuiltin, []⟩
      ([.values size, .names size, .call, .env, .context] ++ Γ ++ [.function [.builtin]]) [.value]
  | callPrimitive {n : Nat} {s : Symbol} {b : Builtin} {size : Option Nat} {Γ : Layout}
    (hΓ : Counted size Γ) (hc : u.constants[n]? = some (.primitive s))
    (hb : Builtin.ofName? s.name = some b) :
    Effect z u ⟨.callPrimitive, [n]⟩
      ([.values size, .names size, .call, .env, .context] ++ Γ) [.value]
  | elementAt : Effect z u ⟨.elementAt, []⟩ [.int, .value] [.value]
  | length : Effect z u ⟨.length, []⟩ [.value] [.int]
  | addInt : Effect z u ⟨.addInt, []⟩ [.int, .int] [.int]
  | greaterEqual : Effect z u ⟨.greaterEqual, []⟩ [.value, .value] [.value]
  | makeClosure {n : Nat} {f : FunctionUnit} (hf : u.closures[n]? = some f) :
    Effect z u ⟨.makeClosure, [n]⟩ [.env] [.value]
  | truthy : Effect z u ⟨.truthy, []⟩ [.value] [.int]
  | boxInt : Effect z u ⟨.boxInt, []⟩ [.int] [.value]
  | unboxInt : Effect z u ⟨.unboxInt, []⟩ [.value] [.int]

/-- The instruction at `p` may be executed on a stack of layout `Γ`, and these are the offsets where
execution may go on, each with the layout there. -/
inductive Rule (z : Slots) (u : CodeUnit) (p : Nat) :
    Instruction → Layout → List (Nat × Layout) → Prop
  | effect {i : Instruction} {pre post : Layout} (h : Effect z u i pre post) (Γ : Layout) :
    Rule z u p i (pre ++ Γ) [(p + i.op.size, post ++ Γ)]
  | jump (t : Nat) (Γ : Layout) : Rule z u p ⟨.jump, [t]⟩ Γ [(t, Γ)]
  | jumpIfZero (t : Nat) (Γ : Layout) :
    Rule z u p ⟨.jumpIfZero, [t]⟩ (.int :: Γ) [(p + Opcode.jumpIfZero.size, Γ), (t, Γ)]
  /-- Either way the category of the function is known better. -/
  | jumpIfNonZero (c : Category) (cs : List Category) (t : Nat) (Γ : Layout) :
    Rule z u p ⟨.jumpIfNonZero, [t]⟩ (.test c cs :: Γ)
      [(p + Opcode.jumpIfNonZero.size, .function (cs.filter (· ≠ c)) :: Γ),
        (t, .function [c] :: Γ)]
  | jumpIfIntLess (t : Nat) (Γ : Layout) :
    Rule z u p ⟨.jumpIfIntLess, [t]⟩ (.int :: .int :: Γ)
      [(p + Opcode.jumpIfIntLess.size, Γ), (t, Γ)]
  /-- A unit returns when there is nothing but its value on the stack. -/
  | ret : Rule z u p ⟨.ret, []⟩ [.value] []

end CallByNeed
