import CallByNeed.Proofs.Code.Unit

/-!
# The code of operands, laid out

What stands between two offsets of a finished unit, as far as control goes. Most code is straight:
its instructions go on behind themselves (`CodeUnit.Straight`). Only a call of a function that is
found while the program runs has jumps of its own: two tests lead to the code for a builtin and for a
closure, special forms are what is left, and the three ways meet behind the call
(`CodeUnit.Dispatches`).

Which calls an operand makes that way can be read off the operand (`Flow.Term.calls`), and its code
makes them in that order (`Lines.term`).
-/

namespace CallByNeed

open CallByNeed.Flow (Term Thunk Operands)

/-! ## Calls of an operand -/

/-- Calls in the order of their code: those among the arguments of the first call, and the others. -/
inductive Calls where
  | none
  | call (arguments rest : Calls)

namespace Calls

/-- Some calls, and then others. -/
def append : Calls → Calls → Calls
  | none, cs => cs
  | call arguments rest, cs => call arguments (rest.append cs)

instance : Append Calls := ⟨append⟩

@[simp] lemma none_append (cs : Calls) : none ++ cs = cs := rfl

@[simp] lemma call_append (arguments rest cs : Calls) :
    call arguments rest ++ cs = call arguments (rest ++ cs) := rfl

@[simp] lemma append_none (cs : Calls) : cs ++ none = cs := by
  induction cs with
  | none => rfl
  | call arguments rest _ ih => rw [call_append, ih]

end Calls

namespace Flow.Term

mutual

/-- The calls of functions that are found while the operand is evaluated. A builtin that is known by
its name is called without any choice, but its arguments may make calls. -/
def calls : Term → Calls
  | .element vector index => vector.calls ++ index.calls
  | .length t | .increment t => t.calls
  | .atLeast left right => left.calls ++ right.calls
  | .primitive _ ⟨_, args, _⟩ => callsOf args
  | .call (.name _) ⟨_, args, _⟩ => .call (callsOf args) .none
  | .call (.computed t) ⟨_, args, _⟩ => t.calls ++ .call (callsOf args) .none
  | _ => .none

/-- The calls of several operands. -/
def callsOf : List Term → Calls
  | [] => .none
  | t :: ts => t.calls ++ callsOf ts

end

end Flow.Term

/-! ## Code between two offsets -/

namespace CodeUnit

variable (u : CodeUnit)

/-- The instruction at an offset is of a kind. -/
def Reads (p : Nat) (op : Opcode) : Prop := u.code[p]?.bind Opcode.ofByte? = some op

/-- Instructions that go on behind themselves, one after the other. -/
inductive Straight : Nat → Nat → Prop where
  | nil (p : Nat) : Straight p p
  | cons {p q : Nat} {op : Opcode} (hop : u.Reads p op) (hjump : op.isJump = false)
    (hret : op ≠ .ret) (rest : Straight (p + op.size) q) : Straight p q

/-- A call of a function of unknown category, from `p` to `q`. The two tests lead to `builtin` and to
`closure`, and a special form is called where they lead on. All three ways lead to `q`. The code of
the arguments is repeated in two of them. -/
structure Dispatches (arguments : Nat → Nat → Prop) (p q closure builtin : Nat) : Prop where
  toBuiltin : u.Reads p .dup ∧ u.Reads (p + 1) .isBuiltin ∧
    u.code.Holds (p + 2) ⟨.jumpIfNonZero, [builtin]⟩
  toClosure : u.Reads (p + 5) .dup ∧ u.Reads (p + 6) .isClosure ∧
    u.code.Holds (p + 7) ⟨.jumpIfNonZero, [closure]⟩
  special : ∃ r, u.Straight (p + 10) r ∧ u.Reads r .applySpecial ∧
    u.code.Holds (r + 1) ⟨.jump, [q]⟩ ∧ closure = r + 4
  closure : ∃ r, u.Reads closure .castClosure ∧ arguments (closure + 1) r ∧
    u.Reads r .applyClosure ∧ u.code.Holds (r + 1) ⟨.jump, [q]⟩ ∧ builtin = r + 4
  builtin : ∃ r, u.Reads builtin .castBuiltin ∧ arguments (builtin + 1) r ∧
    u.Reads r .applyBuiltin ∧ q = r + 1

/-- Code that makes these calls and is straight otherwise. -/
def Lined : Calls → Nat → Nat → Prop
  | .none, p, q => u.Straight p q
  | .call arguments rest, p, q => ∃ r s closure builtin, u.Straight p r ∧
    u.Dispatches (Lined arguments) r s closure builtin ∧ Lined rest s q

variable {u} {p q r : Nat} {op : Opcode} {cs ds : Calls}

lemma Straight.one (hop : u.Reads p op) (hjump : op.isJump = false) (hret : op ≠ .ret) :
    u.Straight p (p + op.size) := .cons hop hjump hret (.nil _)

lemma Straight.trans (h : u.Straight p r) (h' : u.Straight r q) : u.Straight p q := by
  induction h with
  | nil => exact h'
  | cons hop hjump hret _ ih => exact .cons hop hjump hret (ih h')

/-- Straight code that comes first. -/
lemma Straight.lined (h : u.Straight p r) (h' : u.Lined cs r q) : u.Lined cs p q := by
  cases cs with
  | none => exact h.trans h'
  | call arguments rest =>
    obtain ⟨r', s, closure, builtin, hstraight, hcall, hrest⟩ := h'
    exact ⟨r', s, closure, builtin, h.trans hstraight, hcall, hrest⟩

/-- One piece of code after the other. -/
lemma Lined.append (h : u.Lined cs p r) (h' : u.Lined ds r q) : u.Lined (cs ++ ds) p q := by
  induction cs generalizing p with
  | none => exact Straight.lined h h'
  | call arguments rest _ ih =>
    obtain ⟨r', s, closure, builtin, hstraight, hcall, hrest⟩ := h
    exact ⟨r', s, closure, builtin, hstraight, hcall, ih hrest⟩

end CodeUnit

/-! ## Emitting -/

/-- What is read in the finished unit where a sketch was added. -/
lemma Assembly.Links.reads {z b : Assembly} {u : CodeUnit} (hz : z.Links u) (hb : b.Extends z)
    {ks : List Sketch} {k : Sketch} (hd : b.Draws (ks ++ [k])) :
    u.Reads (Sketch.bytes ks).length k.raw.op := by
  obtain ⟨more, hmore⟩ := hb.draws _ hd
  have hks : ∀ k ∈ ks, k.Sound := fun k hk => hmore.sound k (by simp [hk])
  have hk : k.Sound := hmore.sound k (by simp)
  have hcode : u.code.toList = Sketch.linkedBytes z.jumps ks ++
      ((k.linked z.jumps).encode ++ Sketch.linkedBytes z.jumps more) := by
    rw [hz.code _ hmore]
    simp [Sketch.linkedBytes]
  rw [← Sketch.length_linkedBytes z.jumps hks, ← Sketch.linked_op]
  exact (Bytes.reads_of_append _ (hk.shaped_linked z.jumps) hcode).1

/-- An instruction, whatever its operands. -/
lemma Emits.reads {nested : Nested} {anon : List Mark} {op : Opcode} {operands : List Nat}
    (hshape : operands.length = op.widths.length) (hop : op.isJump = false) :
    Emits nested anon [] (Assemble.emit op operands) (fun _ p q _ u =>
      q = p + op.size ∧ u.Reads p op) := by
  intro a x a' hc ha hm
  obtain ⟨hg, hs⟩ := emit hshape hop a x a' hc ha hm
  refine ⟨hg, fun z u hz he => ⟨(hs z u hz he).1, ?_⟩⟩
  obtain ⟨ks, hks⟩ := ha.draws
  cases hc
  rw [hks.position]
  exact hz.reads he (hks.emit hshape hop)

/-- A step of assembling that meets `vs` and whose code makes these calls. -/
def Lines {α : Type} (nested : Nested) (vs : List Visit) (cs : Calls) (c : Assemble α) : Prop :=
  ∀ anon, Emits nested anon vs c (fun _ p q _ u => u.Lined cs p q)

namespace Lines

variable {α β : Type} {nested : Nested} {vs ws : List Visit} {cs ds : Calls}

/-- What is met and called may be written differently. -/
lemma meets {c : Assemble α} (h : Lines nested vs cs c) (hvs : vs = ws) (hcs : cs = ds) :
    Lines nested ws ds c := hvs ▸ hcs ▸ h

protected lemma pure (x : α) : Lines nested [] .none (Pure.pure x : Assemble α) := fun _ =>
  (Emits.nothing x).mono fun _ _ _ _ _ _ ⟨_, hq⟩ => hq ▸ .nil _

protected lemma throw (e : CompileError) :
    Lines nested vs cs (MonadExcept.throw e : Assemble α) := fun _ => .throw e

/-- A step that emits nothing. -/
lemma quiet {c : Assemble α} {S : α → Nat → Nat → Assembly → CodeUnit → Prop}
    (h : ∀ anon, Emits nested anon vs c S) (hS : ∀ x p q z u, S x p q z u → q = p) :
    Lines nested vs .none c := fun anon =>
  (h anon).mono fun x p q z u _ hs => hS x p q z u hs ▸ .nil _

/-- An instruction that goes on behind itself. -/
lemma emit (op : Opcode) (operands : List Nat) (hshape : operands.length = op.widths.length)
    (hjump : op.isJump = false) (hret : op ≠ .ret) :
    Lines nested [] .none (Assemble.emit op operands) := fun _ =>
  (Emits.reads hshape hjump).mono fun _ _ _ _ _ _ ⟨hq, hop⟩ => hq ▸ .one hop hjump hret

protected lemma bind {c : Assemble α} {d : α → Assemble β} (h : Lines nested vs cs c)
    (h' : ∀ x, Lines nested ws ds (d x)) : Lines nested (vs ++ ws) (cs ++ ds) (c >>= d) :=
  fun anon => ((h anon).bind fun x => h' x anon).mono
    fun _ _ _ _ _ _ ⟨_, _, hc, hd⟩ => hc.append hd

protected lemma seq {c : Assemble Unit} {d : Assemble β} (h : Lines nested vs cs c)
    (h' : Lines nested ws ds d) : Lines nested (vs ++ ws) (cs ++ ds) (c >>= fun _ => d) :=
  h.bind fun _ => h'

/-! ### Common pieces -/

lemma nameIndex (s : Symbol) : Lines nested [] .none (Assemble.nameIndex s) :=
  quiet (fun _ => Emits.nameIndex s) fun _ _ _ _ _ h => h.1

lemma callIndex (c : Flow.CallSite) : Lines nested [.site c] .none (Assemble.callIndex c) :=
  quiet (fun _ => Emits.callIndex c) fun _ _ _ _ _ h => h.1

lemma thunkIndex (d : Thunk) : Lines nested [.thunk d] .none (Assemble.thunkIndex nested d) :=
  quiet (fun _ => Emits.thunkIndex d) fun _ _ _ _ _ h => h.1

lemma loadContext : Lines nested [] .none Assemble.loadContext :=
  emit .load [_] rfl rfl (by decide)

lemma loadEnvironment : Lines nested [] .none Assemble.loadEnvironment :=
  emit .load [_] rfl rfl (by decide)

lemma pushLiteral (e : Expr) : Lines nested [] .none (Assemble.pushLiteral e) :=
  (quiet (fun _ => Emits.literalIndex e) fun _ _ _ _ _ h => h.1).bind fun _ =>
    emit .constant [_] rfl rfl (by decide)

lemma pushInt (k : Int32) : Lines nested [] .none (Assemble.pushInt k) :=
  emit .int [_] rfl rfl (by decide)

lemma pushCall (c : Flow.CallSite) : Lines nested [.site c] .none (Assemble.pushCall c) :=
  (callIndex c).bind fun _ => emit .constant [_] rfl rfl (by decide)

lemma loadVariable (s : Symbol) : Lines nested [] .none (Assemble.loadVariable s) :=
  (nameIndex s).bind fun i => (emit .findVariable [i] rfl rfl (by decide)).seq
    (emit .force [] rfl rfl (by decide))

lemma loadSlot (key : Flow.SlotKey) (operand : String) :
    Lines nested [] .none (Assemble.loadSlot key operand) := by
  intro anon a kind a' hc ha hm
  rw [Assemble.loadSlot, Assemble.get_bind_apply] at hc
  cases hl : a.slots.lookup? key with
  | none =>
    rw [hl] at hc
    cases hc
  | some slot =>
    rw [hl] at hc
    obtain ⟨index, kind⟩ := slot
    cases kind with
    | int =>
      exact ((emit .loadInt [index] rfl rfl (by decide)).seq (.pure SlotKind.int)) anon a _ a' hc ha hm
    | value =>
      exact ((emit .load [index] rfl rfl (by decide)).seq (.pure SlotKind.value)) anon a _ a' hc ha hm

/-- Boxing is straight. -/
lemma boxed {c : Assemble SlotKind} (h : Lines nested vs cs c) :
    Lines nested vs cs (Assemble.boxed c) := by
  refine (h.bind fun kind => ?_).meets (List.append_nil vs) cs.append_none
  split
  · exact emit .boxInt [] rfl rfl (by decide)
  · exact .pure _

/-- Unboxing is straight. -/
lemma unboxed {c : Assemble SlotKind} (h : Lines nested vs cs c) :
    Lines nested vs cs (Assemble.unboxed c) := by
  refine (h.bind fun kind => ?_).meets (List.append_nil vs) cs.append_none
  split
  · exact emit .unboxInt [] rfl rfl (by decide)
  · exact .pure _

/-- Saying what was left on the stack emits nothing. -/
lemma as {c : Assemble α} (h : Lines nested vs cs c) (x : β) :
    Lines nested vs cs (c >>= fun _ => Pure.pure x) :=
  (h.bind fun _ => .pure x).meets (List.append_nil vs) cs.append_none

/-! ### Arguments -/

lemma evaluateThunk (d : Thunk) :
    Lines nested (Emits.lateVisits d) .none (Assemble.evaluateThunk nested d) := by
  unfold Assemble.evaluateThunk Emits.lateVisits
  cases d.name? with
  | some name => exact loadVariable name
  | none =>
    exact (thunkIndex d).bind fun _ => loadContext.seq (loadEnvironment.seq
      (emit .evalThunk [_] rfl rfl (by decide)))

lemma promised (d : Thunk) :
    Lines nested (Emits.lateVisits d) .none (match d.name? with
      | some bare => do
        let index ← Assemble.nameIndex bare
        Assemble.loadEnvironment
        Assemble.emit .makeVariablePromise [index]
      | none => do
        let index ← Assemble.thunkIndex nested d
        Assemble.loadContext
        Assemble.loadEnvironment
        Assemble.emit .makeThunk [index]) := by
  unfold Emits.lateVisits
  cases d.name? with
  | some name =>
    exact (nameIndex name).bind fun _ => loadEnvironment.seq
      (emit .makeVariablePromise [_] rfl rfl (by decide))
  | none =>
    exact (thunkIndex d).bind fun _ => loadContext.seq (loadEnvironment.seq
      (emit .makeThunk [_] rfl rfl (by decide)))

lemma addArgument (name : Option Symbol) : Lines nested [] .none (Assemble.addArgument name) := by
  unfold Assemble.addArgument
  cases name with
  | some name => exact (nameIndex name).bind fun _ => emit .argAddNamed [_] rfl rfl (by decide)
  | none => exact emit .argAdd [] rfl rfl (by decide)

lemma nameArguments (names : List (Option Symbol)) (position : Nat) :
    Lines nested [] .none (Assemble.nameArguments names position) := by
  induction names generalizing position with
  | nil => exact .pure _
  | cons name names ih =>
    cases name with
    | none => exact ih (position + 1)
    | some name =>
      exact (nameIndex name).bind fun i =>
        (emit .nameAt [position, i] rfl rfl (by decide)).seq (ih (position + 1))

lemma splice (op : Opcode) (o : Operands Term) (hw : op.widths = [2]) (hjump : op.isJump = false)
    (hret : op ≠ .ret) : Lines nested [] .none (Assemble.splice op o) := by
  unfold Assemble.splice
  cases o.ellipsisIndex? with
  | none => exact .pure _
  | some n =>
    exact (emit .load [workSlot] rfl rfl (by decide)).seq (emit op [n] (by rw [hw]; rfl) hjump hret)

lemma pushBuiltinFrame (o : Operands Term) :
    Lines nested [.site o.site] .none (Assemble.pushBuiltinFrame o) := by
  have hdots : Lines nested [] .none (Assemble.storeEllipsis o) := by
    unfold Assemble.storeEllipsis
    split
    · exact (emit .loadEllipsis [] rfl rfl (by decide)).seq
        (emit .store [workSlot] rfl rfl (by decide))
    · exact .pure _
  have hnames : Lines nested [] .none (Assemble.pushNames o) :=
    (emit .newNames [o.args.length] rfl rfl (by decide)).seq ((nameArguments o.names 0).seq
      (splice .spliceNames o rfl rfl (by decide)))
  exact hdots.seq (loadContext.seq (loadEnvironment.seq ((pushCall o.site).seq
    (hnames.seq (emit .newValues [o.args.length] rfl rfl (by decide))))))

/-! ### Calls -/

section

variable {anon : List Mark} {o : Operands Term}

/-- The two tests. -/
lemma tests (mb mc : Mark) :
    Emits nested anon [] (do
        Assemble.emit .dup []
        Assemble.emit .isBuiltin []
        Assemble.jump .jumpIfNonZero mb
        Assemble.emit .dup []
        Assemble.emit .isClosure []
        Assemble.jump .jumpIfNonZero mc : Assemble Unit) (fun _ p q z u =>
      q = p + 10 ∧
        (∃ tb, z.jumps.position? mb = some tb ∧ u.Reads p .dup ∧ u.Reads (p + 1) .isBuiltin ∧
          u.code.Holds (p + 2) ⟨.jumpIfNonZero, [tb]⟩) ∧
        ∃ tc, z.jumps.position? mc = some tc ∧ u.Reads (p + 5) .dup ∧
          u.Reads (p + 6) .isClosure ∧ u.code.Holds (p + 7) ⟨.jumpIfNonZero, [tc]⟩) := by
  refine ((Emits.plain .dup rfl rfl).seq ((Emits.plain .isBuiltin rfl rfl).seq
    ((Emits.jump .jumpIfNonZero mb rfl).seq ((Emits.plain .dup rfl rfl).seq
      ((Emits.plain .isClosure rfl rfl).seq (Emits.jump .jumpIfNonZero mc rfl)))))).mono ?_
  rintro _ p q z u _ ⟨_, ⟨rfl, h₁⟩, _, ⟨rfl, h₂⟩, _, ⟨rfl, tb, htb, h₃⟩, _, ⟨rfl, h₄⟩, _,
    ⟨rfl, h₅⟩, rfl, tc, htc, h₆⟩
  exact ⟨rfl, ⟨tb, htb, h₁.op, h₂.op, h₃⟩, tc, htc, h₄.op, h₅.op, h₆⟩

/-- The way of special forms. -/
lemma specialWay (mf : Mark) :
    Emits nested anon [.site o.site] (do
        Assemble.loadContext
        Assemble.loadEnvironment
        Assemble.pushCall o.site
        Assemble.emit .applySpecial []
        Assemble.jump .jump mf : Assemble Unit) (fun _ p q z u =>
      ∃ r t, z.jumps.position? mf = some t ∧ u.Straight p r ∧ u.Reads r .applySpecial ∧
        u.code.Holds (r + 1) ⟨.jump, [t]⟩ ∧ q = r + 4) := by
  refine ((loadContext anon).seq ((loadEnvironment anon).seq ((pushCall o.site anon).seq
    ((Emits.plain .applySpecial rfl rfl).seq (Emits.jump .jump mf rfl))))).mono ?_
  rintro _ p q z u _ ⟨r₁, hctx, r₂, henv, r, hcall, _, ⟨rfl, h⟩, rfl, t, ht, hj⟩
  exact ⟨r, t, ht, (hctx.trans henv).trans hcall, h.op, hj, rfl⟩

/-- The way of closures. -/
lemma closureWay {closureArguments : Assemble Unit} {mc : Mark} (mf : Mark) (hmem : mc ∈ anon)
    (hargs : Lines nested vs cs closureArguments) :
    Emits nested anon (.site o.site :: vs) (do
        Assemble.place mc
        Assemble.emit .castClosure []
        Assemble.loadContext
        Assemble.pushCall o.site
        Assemble.emit .newArgList []
        closureArguments
        Assemble.emit .applyClosure []
        Assemble.jump .jump mf : Assemble Unit) (fun _ p q z u =>
      z.jumps.position? mc = some p ∧ ∃ r t, z.jumps.position? mf = some t ∧
        u.Reads p .castClosure ∧ u.Lined cs (p + 1) r ∧ u.Reads r .applyClosure ∧
          u.code.Holds (r + 1) ⟨.jump, [t]⟩ ∧ q = r + 4) := by
  refine (((Emits.place mc hmem).seq ((Emits.plain .castClosure rfl rfl).seq
    ((loadContext anon).seq ((pushCall o.site anon).seq
      ((emit .newArgList [] rfl rfl (by decide) anon).seq ((hargs anon).seq
        ((Emits.plain .applyClosure rfl rfl).seq (Emits.jump .jump mf rfl)))))))).mono ?_).meets
          (by simp)
  rintro _ p q z u _ ⟨_, ⟨rfl, hmc⟩, _, ⟨rfl, h₁⟩, r₂, hctx, r₃, hcall, r₄, hnew, r, hargs, _,
    ⟨rfl, h₂⟩, rfl, t, ht, hj⟩
  exact ⟨hmc, r, t, ht, h₁.op, ((hctx.trans hcall).trans hnew).lined hargs, h₂.op, hj, rfl⟩

/-- The way of builtins. -/
lemma builtinWay {builtinValues : Assemble Unit} {mb mf : Mark} (hmb : mb ∈ anon)
    (hmf : mf ∈ anon) (hvalues : Lines nested vs cs builtinValues) :
    Emits nested anon (.site o.site :: vs) (do
        Assemble.place mb
        Assemble.emit .castBuiltin []
        Assemble.pushBuiltinFrame o
        builtinValues
        Assemble.splice .spliceValues o
        Assemble.emit .applyBuiltin []
        Assemble.place mf : Assemble Unit) (fun _ p q z u =>
      z.jumps.position? mb = some p ∧ z.jumps.position? mf = some q ∧ ∃ r,
        u.Reads p .castBuiltin ∧ u.Lined cs (p + 1) r ∧ u.Reads r .applyBuiltin ∧ q = r + 1) := by
  refine (((Emits.place mb hmb).seq ((Emits.plain .castBuiltin rfl rfl).seq
    ((pushBuiltinFrame o anon).seq ((hvalues anon).seq
      ((splice .spliceValues o rfl rfl (by decide) anon).seq ((Emits.plain .applyBuiltin rfl rfl).seq
        (Emits.place mf hmf))))))).mono ?_).meets (by simp)
  rintro _ p q z u _ ⟨_, ⟨rfl, hmb⟩, _, ⟨rfl, h₁⟩, r₂, hframe, r₃, hvalues, r, hsplice, _,
    ⟨rfl, h₂⟩, rfl, hmf⟩
  have hcode : u.Lined (cs ++ .none) _ r := (CodeUnit.Straight.lined hframe hvalues).append hsplice
  rw [Calls.append_none] at hcode
  exact ⟨hmb, hmf, r, h₁.op, hcode, h₂.op, rfl⟩

/-- A call of a function of unknown category. -/
lemma dispatch {closureArguments builtinValues : Assemble Unit}
    (hargs : Lines nested vs cs closureArguments) (hvalues : Lines nested ws cs builtinValues) :
    Lines nested (.site o.site :: .site o.site :: (vs ++ .site o.site :: ws)) (.call cs .none)
      (Assemble.dispatch o closureArguments builtinValues) := by
  intro anon
  rw [Emits.dispatch_eq]
  refine Emits.freshMark fun mb => Emits.freshMark fun mc => Emits.freshMark fun mf => ?_
  refine (((tests mb mc).seq ((specialWay mf).seq ((closureWay mf (by simp) hargs).seq
    (builtinWay (by simp) (by simp) hvalues)))).mono ?_).meets (by simp)
  rintro _ p q z u _ ⟨_, ⟨rfl, ⟨tb, htb, htoBuiltin⟩, tc, htc, htoClosure⟩,
    _, ⟨rs, ts, hts, hspecial⟩, _, ⟨hmc, rc, tf, htf, hclosure⟩, hmb, hmf, hbuiltin⟩
  obtain rfl := Option.some.inj (htb.symm.trans hmb)
  obtain rfl := Option.some.inj (htc.symm.trans hmc)
  obtain rfl := Option.some.inj (hts.symm.trans hmf)
  obtain rfl := Option.some.inj (htf.symm.trans hmf)
  exact ⟨p, _, _, _, .nil p, ⟨htoBuiltin, htoClosure, ⟨rs, hspecial⟩, ⟨rc, hclosure⟩, hbuiltin⟩,
    .nil _⟩

end

/-! ### Operands -/

/-- What follows a check may rely on it. -/
lemma checked {o : Operands Term} {c : Assemble α} (h : Emits.Passable o → Lines nested vs cs c) :
    Lines nested vs cs (Assemble.checkOperands o >>= fun _ => c) :=
  fun anon => Emits.checked fun ho => h ho anon

/-- One argument is appended, and then the others. -/
lemma append (name : Option Symbol) {c d : Assemble Unit} (hc : Lines nested vs cs c)
    (hd : Lines nested ws ds d) :
    Lines nested (vs ++ ws) (cs ++ ds) (do c; Assemble.addArgument name; d) :=
  (hc.seq ((addArgument name).seq hd)).meets rfl rfl

/-- One value is filled in, and then the others. -/
lemma fillValue {position : Nat} {c d : Assemble Unit} (hc : Lines nested vs cs c)
    (hd : Lines nested ws ds d) :
    Lines nested (vs ++ ws) (cs ++ ds) (do c; Assemble.emit .valueAt [position]; d) :=
  (hc.seq ((emit .valueAt [position] rfl rfl (by decide)).seq hd)).meets rfl rfl

mutual

/-- **The code of an operand** makes its calls. -/
theorem term (nested : Nested) : ∀ t : Term, Lines nested t.visits t.calls (Assemble.term nested t)
  | .int n => (pushInt n).as _
  | .literal e => (pushLiteral e).as _
  | .temp id => loadSlot (.temp id) _
  | .local id name => loadSlot (.local id) _
  | .env name => (loadVariable name).as _
  | .element vector index =>
    ((term nested vector).boxed.seq ((term nested index).unboxed.seq
      ((emit .elementAt [] rfl rfl (by decide)).as _))).meets (by simp [Flow.Term.visits])
        (by simp [Flow.Term.calls])
  | .length vector =>
    ((term nested vector).boxed.seq ((emit .length [] rfl rfl (by decide)).as _)).meets
      (by simp [Flow.Term.visits]) (by simp [Flow.Term.calls])
  | .increment counter =>
    ((term nested counter).unboxed.seq ((pushInt 1).seq
      ((emit .addInt [] rfl rfl (by decide)).as _))).meets (by simp [Flow.Term.visits])
        (by simp [Flow.Term.calls])
  | .atLeast left right =>
    ((term nested left).boxed.seq ((term nested right).boxed.seq
      ((emit .greaterEqual [] rfl rfl (by decide)).as _))).meets (by simp [Flow.Term.visits])
        (by simp [Flow.Term.calls])
  | .closure node procedure =>
    (quiet (fun _ => Emits.closureIndex node procedure) fun _ _ _ _ _ h => h.1).bind fun i =>
      loadEnvironment.seq ((emit .makeClosure [i] rfl rfl (by decide)).as _)
  | .thunk deferred => (evaluateThunk deferred).as _
  | .ellipsis => .throw _
  | .primitive name ⟨site, args, names⟩ => by
    refine checked fun _ => ?_
    cases hb : Builtin.ofName? name.name with
    | none => exact .throw _
    | some b =>
      have hindex : Lines nested [] .none (Assemble.primitiveIndex name) :=
        quiet (fun _ => Emits.primitiveIndex name) fun _ _ _ _ _ h => h.1
      exact (hindex.bind fun i => (pushBuiltinFrame ⟨site, args, names⟩).seq
        ((builtinValues nested args 0).seq ((splice .spliceValues _ rfl rfl (by decide)).seq
          ((emit .callPrimitive [i] rfl rfl (by decide)).as _)))).meets (by simp [Flow.Term.visits])
            (by simp [Flow.Term.calls])
  | .call (.name name) ⟨site, args, names⟩ => by
    have hfind : Lines nested [] .none (Assemble.findFunction name) :=
      (nameIndex name).bind fun _ => emit .findFunction [_] rfl rfl (by decide)
    exact checked fun ho => (hfind.seq ((dispatch (closureArguments nested args names ho.names)
      (builtinValues nested args 0)).as _)).meets (by simp [Flow.Term.visits])
        (by simp [Flow.Term.calls])
  | .call (.computed t) ⟨site, args, names⟩ => by
    have hcheck : Lines nested [.site site] .none (Assemble.checkFunction ⟨site, args, names⟩) :=
      (callIndex site).bind fun _ => emit .checkFunction [_] rfl rfl (by decide)
    exact checked fun ho => ((term nested t).boxed.seq (hcheck.seq
      ((dispatch (closureArguments nested args names ho.names)
        (builtinValues nested args 0)).as _))).meets (by simp [Flow.Term.visits])
          (by simp [Flow.Term.calls])

/-- The code of the arguments of a closure makes their calls. -/
theorem closureArguments (nested : Nested) :
    ∀ (ts : List Term) (names : List (Option Symbol)), names.length = ts.length →
      Lines nested (Flow.Term.visitsOf ts) (Flow.Term.callsOf ts)
        (Assemble.closureArguments nested ts names)
  | [], [], _ => .pure _
  | t :: ts, name :: names, hlen => by
    have hrest := closureArguments nested ts names (Nat.succ.inj hlen)
    cases t with
    | ellipsis =>
      exact (emit .loadEllipsis [] rfl rfl (by decide)).seq
        ((emit .argAddAll [] rfl rfl (by decide)).seq hrest)
    | thunk d =>
      have h := (promised d).append name hrest
      refine cast (congrArg (fun c => Lines nested _ _ c) ?_) h
      simp only [Assemble.closureArguments]
      cases d.name? <;> simp only [bind_assoc]
    | _ => exact (term nested _).boxed.append name hrest

/-- The code of the values of a builtin makes their calls. -/
theorem builtinValues (nested : Nested) : ∀ (ts : List Term) (position : Nat),
    Lines nested (Flow.Term.visitsOf ts) (Flow.Term.callsOf ts)
      (Assemble.builtinValues nested ts position)
  | [], _ => .pure _
  | t :: ts, position => by
    have hrest := builtinValues nested ts (position + 1)
    cases t with
    | ellipsis => exact hrest
    | thunk d => exact (evaluateThunk d).fillValue hrest
    | _ => exact (term nested _).boxed.fillValue hrest

end

end Lines

end CallByNeed
