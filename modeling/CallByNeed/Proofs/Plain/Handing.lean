import CallByNeed.Proofs.Discipline.Form
import CallByNeed.Proofs.Flow.Tidy

/-!
# Code that hands promises on

Some instructions push what is no ordinary value: a variable as it is bound, a promise, or the
caller's `...`. In compiled code each of them is followed at once by an instruction that takes it off
the stack again, to force it, to pass it on or to keep it in the work slot (`Hands`), provided that no
operand reads `...` by its name (`Flow.Term.Sober`). So what a unit has on its stack is ordinary
everywhere but between two such instructions (`CodeUnit.HandsOn`).
-/

namespace CallByNeed

open CallByNeed.Flow (Term Thunk Operands Procedure Label Target Block Graph Body)

/-! ## Instructions -/

/-- The instruction pushes what is no ordinary value only if it is one that loads the work slot. -/
def Opcode.Quiet (op : Opcode) : Prop :=
  op ≠ .findVariable ∧ op ≠ .makeVariablePromise ∧ op ≠ .makeThunk ∧ op ≠ .loadEllipsis

instance (op : Opcode) : Decidable op.Quiet := by
  unfold Opcode.Quiet
  infer_instance

/-- What the instruction pushes is ordinary. -/
def Instruction.Quiet (i : Instruction) : Prop := i.op.Quiet ∧ i ≠ ⟨.load, [workSlot]⟩

/-- The first instruction pushes what is no ordinary value, and the second one takes it. -/
inductive Hands (u : CodeUnit) : Instruction → Instruction → Prop
  | reading {n : Nat} {s : Symbol} (hn : u.constants[n]? = some (.name s))
    (hs : s.isEllipsis = false) : Hands u ⟨.findVariable, [n]⟩ ⟨.force, []⟩
  | promise {n : Nat} {s : Symbol} {j : Instruction} (hn : u.constants[n]? = some (.name s))
    (hs : s.isEllipsis = false) (hj : j.op = .argAdd ∨ j.op = .argAddNamed) :
    Hands u ⟨.makeVariablePromise, [n]⟩ j
  | thunk {n : Nat} {j : Instruction} (hj : j.op = .argAdd ∨ j.op = .argAddNamed) :
    Hands u ⟨.makeThunk, [n]⟩ j
  | keep : Hands u ⟨.loadEllipsis, []⟩ ⟨.store, [workSlot]⟩
  | append : Hands u ⟨.loadEllipsis, []⟩ ⟨.argAddAll, []⟩
  | splice {j : Instruction} (hj : j.op = .spliceNames ∨ j.op = .spliceValues) :
    Hands u ⟨.load, [workSlot]⟩ j

/-- An instruction of any other kind than a load is quiet if its kind is. -/
lemma Opcode.Quiet.instruction {op : Opcode} {ns : List Nat} (h : op.Quiet)
    (hload : op = .load → ns ≠ [workSlot]) : Instruction.Quiet ⟨op, ns⟩ :=
  ⟨h, fun heq => hload (congrArg Instruction.op heq) (congrArg Instruction.operands heq)⟩

/-- What takes the value is quiet itself. -/
lemma Hands.quiet {u : CodeUnit} {i j : Instruction} (h : Hands u i j) : j.Quiet := by
  have hquiet : ∀ {j : Instruction}, j.op.Quiet → j.op ≠ .load → j.Quiet := fun h hne =>
    h.instruction fun heq => absurd heq hne
  cases h with
  | reading | keep | append => exact hquiet (by decide) (by decide)
  | promise _ _ hj | thunk hj | splice hj =>
    rcases hj with hj | hj <;> exact hquiet (by rw [hj]; decide) (by rw [hj]; decide)

/-- What pushes the value is not. -/
lemma Hands.not_quiet {u : CodeUnit} {i j : Instruction} (h : Hands u i j) : ¬ i.Quiet := by
  intro hquiet
  cases h with
  | reading => exact hquiet.1.1 rfl
  | promise => exact hquiet.1.2.1 rfl
  | thunk => exact hquiet.1.2.2.1 rfl
  | keep | append => exact hquiet.1.2.2.2 rfl
  | splice => exact hquiet.2 rfl

/-! ## Stretches of code -/

/-- Between two offsets each instruction is quiet, or hands on what it pushes to the next one. -/
inductive CodeUnit.Handed (u : CodeUnit) : Nat → Nat → Prop
  | done (p : Nat) : Handed u p p
  | quiet {p q : Nat} {i : Instruction} (hi : u.code.Holds p i) (h : i.Quiet)
    (rest : Handed u (p + i.op.size) q) : Handed u p q
  | pair {p q : Nat} {i j : Instruction} (hi : u.code.Holds p i)
    (hj : u.code.Holds (p + i.op.size) j) (h : Hands u i j)
    (rest : Handed u (p + i.op.size + j.op.size) q) : Handed u p q

namespace CodeUnit.Handed

variable {u : CodeUnit} {p q r : Nat} {i j : Instruction}

lemma trans (h : u.Handed p r) (h' : u.Handed r q) : u.Handed p q := by
  induction h with
  | done => exact h'
  | quiet hi hquiet _ ih => exact .quiet hi hquiet (ih h')
  | pair hi hj hhands _ ih => exact .pair hi hj hhands (ih h')

/-- One instruction. -/
lemma one (hi : u.code.Holds p i) (h : i.Quiet) (hq : q = p + i.op.size) : u.Handed p q :=
  hq ▸ .quiet hi h (.done _)

/-- Two instructions. -/
lemma two (hi : u.code.Holds p i) (hr : r = p + i.op.size) (hj : u.code.Holds r j)
    (hq : q = r + j.op.size) (h : Hands u i j) : u.Handed p q := by
  subst hr hq
  exact .pair hi hj h (.done _)

end CodeUnit.Handed

/-! ## Sober operands -/

namespace Flow.Term

/-- A late argument does not read `...` by its name. -/
def SoberThunk (d : Thunk) : Prop := ∀ s, d.name? = some s → s.isEllipsis = false

mutual

/-- No operand reads `...` by its name. -/
def Sober : Term → Prop
  | .env s => s.isEllipsis = false
  | .element vector index => vector.Sober ∧ index.Sober
  | .length t | .increment t => t.Sober
  | .atLeast left right => left.Sober ∧ right.Sober
  | .thunk d => SoberThunk d
  | .primitive _ ⟨_, args, _⟩ | .call (.name _) ⟨_, args, _⟩ => SoberAll args
  | .call (.computed t) ⟨_, args, _⟩ => t.Sober ∧ SoberAll args
  | .int _ | .literal _ | .temp _ | .local .. | .closure .. | .ellipsis => True

/-- None of the operands reads `...` by its name. -/
def SoberAll : List Term → Prop
  | [] => True
  | t :: ts => t.Sober ∧ SoberAll ts

end

lemma soberAll_iff {ts : List Term} : SoberAll ts ↔ ∀ t ∈ ts, t.Sober := by
  induction ts with
  | nil => simp [SoberAll]
  | cons t ts ih => simp [SoberAll, ih]

end Flow.Term

/-- The operand of the statement is sober. -/
def Flow.Statement.Sober (s : Flow.Statement Term) : Prop := ∀ t, s.operand? = some t → t.Sober

/-- No operand of a statement of the body reads `...` by its name. -/
def Flow.Body.Sober (b : Body) : Prop := ∀ t ∈ b.operands, t.Sober

/-! ## Emitting -/

/-- What a piece of emitting adds hands on what it pushes. -/
abbrev HandsOn {α : Type} (nested : Nested) (anon : List Mark) (vs : List Visit)
    (c : Assemble α) : Prop :=
  Emits nested anon vs c fun _ p q _ u => u.Handed p q

namespace HandsOn

variable {α β : Type} {nested : Nested} {anon : List Mark} {vs ws : List Visit} {c : Assemble α}

lemma nothing (x : α) : HandsOn nested anon [] (pure x : Assemble α) :=
  (Emits.nothing x).mono fun _ _ _ _ _ _ h => h.2 ▸ .done _

lemma bind {d : α → Assemble β} (h : HandsOn nested anon vs c)
    (h' : ∀ x, HandsOn nested anon ws (d x)) : HandsOn nested anon (vs ++ ws) (c >>= d) :=
  (Emits.bind h h').mono fun _ _ _ _ _ _ ⟨_, _, hc, hd⟩ => hc.trans hd

lemma seq {c : Assemble Unit} {d : Assemble β} (h : HandsOn nested anon vs c)
    (h' : HandsOn nested anon ws d) : HandsOn nested anon (vs ++ ws) (c >>= fun _ => d) :=
  bind h fun _ => h'

lemma meets {c : Assemble α} (h : HandsOn nested anon vs c) (heq : vs = ws) :
    HandsOn nested anon ws c := heq ▸ h

/-- What is added last meets nothing. -/
lemma last {d : α → Assemble β} (h : HandsOn nested anon vs c)
    (h' : ∀ x, HandsOn nested anon [] (d x)) : HandsOn nested anon vs (c >>= d) :=
  (bind h h').meets (List.append_nil vs)

/-! ### Pieces -/

/-- An instruction without operands. -/
lemma plain (op : Opcode) (hw : op.widths = []) (hop : op.isJump = false) (hq : op.Quiet) :
    HandsOn nested anon [] (Assemble.emit op []) :=
  (Emits.plain op hw hop).mono fun _ _ _ _ _ _ ⟨hpos, h⟩ =>
    .one h (hq.instruction fun _ => (List.cons_ne_nil _ _).symm) hpos

/-- A jump. -/
lemma jump (op : Opcode) (m : Mark) (hop : op.isJump = true) :
    HandsOn nested anon [] (Assemble.jump op m) :=
  (Emits.jump op m hop).mono fun _ _ _ _ _ _ ⟨hpos, _, _, h⟩ =>
    .one h (Opcode.Quiet.instruction (by cases op <;> first | decide | cases hop)
      fun hload => by rw [hload] at hop; cases hop) hpos

lemma place (m : Mark) (hm : m ∈ anon) : HandsOn nested anon [] (Assemble.place m) :=
  (Emits.place m hm).mono fun _ _ _ _ _ _ h => h.1 ▸ .done _

lemma resolve (l : Label) : HandsOn nested anon [] (Assemble.resolve l) :=
  (Emits.resolve l).mono fun _ _ _ _ _ _ h => h.1 ▸ .done _

/-- An instruction with an index that has room. -/
lemma indexed (op : Opcode) {n : Nat} (hn : n < maxConstants) (hw : op.widths = [2])
    (hop : op.isJump = false) (hq : op.Quiet) : HandsOn nested anon [] (Assemble.emit op [n]) :=
  (Emits.indexed op hw hop).mono fun _ _ _ _ _ _ ⟨hpos, h⟩ =>
    .one (h hn) (hq.instruction fun hload => by rw [hload] at hw; cases hw) hpos

/-- An instruction with an index that is found first, and has room. -/
lemma found {P : Nat → Nat → Nat → Assembly → CodeUnit → Prop} {index : Assemble Nat} (op : Opcode)
    (hindex : Emits nested anon vs index P)
    (hroom : ∀ i p q z u, P i p q z u → q = p ∧ i < maxConstants) (hw : op.widths = [2])
    (hop : op.isJump = false) (hq : op.Quiet) :
    HandsOn nested anon vs (index >>= fun i => Assemble.emit op [i]) := by
  refine ((hindex.bind fun i => Emits.indexed op hw hop).mono ?_).meets (List.append_nil vs)
  rintro _ p q z u _ ⟨i, r, hP, hpos, h⟩
  obtain ⟨rfl, hi⟩ := hroom _ _ _ _ _ hP
  exact .one (h hi) (hq.instruction fun hload => by rw [hload] at hw; cases hw) hpos

/-- An instruction with a name. -/
lemma withName (op : Opcode) (s : Symbol) (hw : op.widths = [2]) (hop : op.isJump = false)
    (hq : op.Quiet) :
    HandsOn nested anon [] (Assemble.nameIndex s >>= fun i => Assemble.emit op [i]) :=
  found op (Emits.nameIndex s) (fun _ _ _ _ _ h => ⟨h.1, h.2.1⟩) hw hop hq

/-- An instruction with a call. -/
lemma withCall (op : Opcode) (c : Flow.CallSite) (hw : op.widths = [2]) (hop : op.isJump = false)
    (hq : op.Quiet) :
    HandsOn nested anon [.site c] (Assemble.callIndex c >>= fun i => Assemble.emit op [i]) :=
  found op (Emits.callIndex c) (fun _ _ _ _ _ h => ⟨h.1, h.2.1⟩) hw hop hq

lemma loadContext : HandsOn nested anon [] Assemble.loadContext :=
  (Emits.slotted .load rfl rfl).mono fun _ _ _ _ _ _ ⟨hpos, h⟩ =>
    .one (h (by decide)) (Opcode.Quiet.instruction (by decide) fun _ => by decide) hpos

lemma loadEnvironment : HandsOn nested anon [] Assemble.loadEnvironment :=
  (Emits.slotted .load rfl rfl).mono fun _ _ _ _ _ _ ⟨hpos, h⟩ =>
    .one (h (by decide)) (Opcode.Quiet.instruction (by decide) fun _ => by decide) hpos

lemma pushLiteral (e : Expr) : HandsOn nested anon [] (Assemble.pushLiteral e) :=
  found .constant (Emits.literalIndex e) (fun _ _ _ _ _ h => ⟨h.1, h.2.1⟩) rfl rfl (by decide)

lemma pushInt (k : Int32) : HandsOn nested anon [] (Assemble.pushInt k) :=
  (Emits.emit (show [intOperand k].length = Opcode.int.widths.length from rfl) rfl).mono
    fun _ _ _ _ _ _ ⟨hpos, h⟩ => .one (h (Instruction.fits_int k))
      (Opcode.Quiet.instruction (by decide) fun hload => by cases hload) hpos

lemma pushCall (c : Flow.CallSite) : HandsOn nested anon [.site c] (Assemble.pushCall c) :=
  withCall .constant c rfl rfl (by decide)

/-- A variable is forced when it is read. -/
lemma loadVariable {s : Symbol} (hs : s.isEllipsis = false) :
    HandsOn nested anon [] (Assemble.loadVariable s) := by
  refine ((Emits.nameIndex s).bind fun i => (Emits.indexed .findVariable rfl rfl).seq
    (Emits.plain .force rfl rfl)).mono ?_
  rintro _ p q z u _ ⟨i, _, ⟨rfl, hi, hc⟩, r, ⟨hr, h⟩, hpos, h'⟩
  exact .two (h hi) hr h' hpos (.reading hc hs)

lemma boxed {c : Assemble SlotKind} (h : HandsOn nested anon vs c) :
    HandsOn nested anon vs (Assemble.boxed c) := by
  refine h.last fun kind => ?_
  split
  · exact plain .boxInt rfl rfl (by decide)
  · exact nothing ()

lemma unboxed {c : Assemble SlotKind} (h : HandsOn nested anon vs c) :
    HandsOn nested anon vs (Assemble.unboxed c) := by
  refine h.last fun kind => ?_
  split
  · exact plain .unboxInt rfl rfl (by decide)
  · exact nothing ()

/-- Saying what kind of word was left. -/
lemma kind {c : Assemble α} (h : HandsOn nested anon vs c) (k : SlotKind) :
    HandsOn nested anon vs (do let _ ← c; return k) :=
  h.last fun _ => nothing k

/-! ### Slots -/

/-- An instruction with the slot of a variable, which lies behind the reserved ones. -/
lemma slotted {op : Opcode} (key : Flow.SlotKey) {slot : Slot} (hw : op.widths = [1])
    (hop : op.isJump = false) (hq : op.Quiet) :
    Emits nested anon [] (Assemble.emit op [slot.index]) fun _ p q z u =>
      z.slots.lookup? key = some slot → u.Handed p q := by
  refine (Emits.slotted op hw hop).mono ?_
  rintro _ p q z u hz ⟨hpos, h⟩ hl
  obtain ⟨hfirst, hlt⟩ := hz.sound.slots.range hl
  refine .one (h (Nat.lt_of_lt_of_le hlt hz.sound.slots.bound)) (hq.instruction fun _ heq => ?_) hpos
  have hindex : slot.index = workSlot := List.head_eq_of_cons_eq heq
  rw [hindex] at hfirst
  exact absurd hfirst (by decide)

lemma loadSlot (key : Flow.SlotKey) (operand : String) :
    HandsOn nested anon [] (Assemble.loadSlot key operand) := by
  intro a kind a' hc ha hm
  rw [Assemble.loadSlot, Assemble.get_bind_apply] at hc
  cases hl : a.slots.lookup? key with
  | none =>
    rw [hl] at hc
    cases hc
  | some slot =>
    rw [hl] at hc
    have hsaying : ∀ {op : Opcode}, op.widths = [1] → op.isJump = false → op.Quiet →
        Emits nested anon [] (do
          Assemble.emit op [slot.index]
          return slot.kind : Assemble SlotKind)
          fun _ p q z u => z.slots.lookup? key = some slot → u.Handed p q := by
      intro op hw hop hq
      refine ((slotted key hw hop hq).seq (Emits.nothing slot.kind)).mono ?_
      rintro _ p q z u _ ⟨r, h, -, rfl⟩
      exact h
    obtain ⟨hg, hs⟩ : a.Grows nested [] a' ∧ ∀ z u, z.Links u → a'.Extends z →
        z.slots.lookup? key = some slot → u.Handed a.position a'.position := by
      cases hkind : slot.kind with
      | int =>
        simp only [hkind] at hc
        exact @hsaying .loadInt rfl rfl (by decide) a kind a' (by rw [hkind]; exact hc) ha hm
      | value =>
        simp only [hkind] at hc
        exact @hsaying .load rfl rfl (by decide) a kind a' (by rw [hkind]; exact hc) ha hm
    exact ⟨hg, fun z u hz he => hs z u hz he ((hg.toExtends.trans he).slots _ _ hl)⟩

/-! ### Late arguments -/

lemma evaluateThunk {d : Thunk} (hd : Flow.Term.SoberThunk d) :
    HandsOn nested anon (Emits.lateVisits d) (Assemble.evaluateThunk nested d) := by
  unfold Assemble.evaluateThunk Emits.lateVisits
  cases hname : d.name? with
  | some s => exact loadVariable (hd s hname)
  | none =>
    refine ((Emits.thunkIndex d).bind fun i => Emits.seq loadContext (Emits.seq loadEnvironment
      (Emits.indexed .evalThunk rfl rfl))).mono ?_
    rintro _ p q z u _ ⟨i, _, ⟨rfl, hi, -⟩, _, hcontext, r, henv, hpos, h⟩
    exact hcontext.trans (henv.trans (.one (h hi) (Opcode.Quiet.instruction (by decide)
      fun hload => by cases hload) hpos))

/-- A late argument that is put off becomes the next argument. -/
lemma promised {d : Thunk} (hd : Flow.Term.SoberThunk d) (name : Option Symbol) :
    HandsOn nested anon (Emits.lateVisits d)
      (match d.name? with
        | some bare => do
          let index ← Assemble.nameIndex bare
          Assemble.loadEnvironment
          Assemble.emit .makeVariablePromise [index]
          Assemble.addArgument name
        | none => do
          let index ← Assemble.thunkIndex nested d
          Assemble.loadContext
          Assemble.loadEnvironment
          Assemble.emit .makeThunk [index]
          Assemble.addArgument name) := by
  have hadd : Emits nested anon [] (Assemble.addArgument name) fun _ p q _ u =>
      ∃ i, u.code.Holds p i ∧ q = p + i.op.size ∧ (i.op = .argAdd ∨ i.op = .argAddNamed) := by
    unfold Assemble.addArgument
    cases name with
    | none => exact (Emits.plain .argAdd rfl rfl).mono fun _ _ _ _ _ _ ⟨hpos, h⟩ =>
        ⟨_, h, hpos, .inl rfl⟩
    | some name =>
      refine ((Emits.nameIndex name).bind fun i => Emits.indexed .argAddNamed rfl rfl).mono ?_
      rintro _ p q z u _ ⟨i, _, ⟨rfl, hi, -⟩, hpos, h⟩
      exact ⟨_, h hi, hpos, .inr rfl⟩
  unfold Emits.lateVisits
  cases hname : d.name? with
  | some bare =>
    refine ((Emits.nameIndex bare).bind fun i => Emits.seq loadEnvironment
      ((Emits.indexed .makeVariablePromise rfl rfl).seq hadd)).mono ?_
    rintro _ p q z u _ ⟨i, _, ⟨rfl, hi, hc⟩, r₂, hload, r₁, ⟨hr₁, h⟩, j, hj, hpos, hop⟩
    exact hload.trans (.two (h hi) hr₁ hj hpos (.promise hc (hd bare hname) hop))
  | none =>
    refine ((Emits.thunkIndex d).bind fun i => Emits.seq loadContext (Emits.seq loadEnvironment
      ((Emits.indexed .makeThunk rfl rfl).seq hadd))).mono ?_
    rintro _ p q z u _ ⟨i, _, ⟨rfl, hi, -⟩, _, hcontext, r₂, hload, r₁, ⟨hr₁, h⟩, j, hj, hpos, hop⟩
    exact hcontext.trans (hload.trans (.two (h hi) hr₁ hj hpos (.thunk hop)))

/-! ### Arguments -/

lemma addArgument (name : Option Symbol) : HandsOn nested anon [] (Assemble.addArgument name) := by
  unfold Assemble.addArgument
  cases name with
  | none => exact plain .argAdd rfl rfl (by decide)
  | some name => exact withName .argAddNamed name rfl rfl (by decide)

/-- The caller's `...` is appended to the arguments. -/
lemma appendDots : HandsOn nested anon [] (do
    Assemble.emit .loadEllipsis []
    Assemble.emit .argAddAll [] : Assemble Unit) := by
  refine ((Emits.plain .loadEllipsis rfl rfl).seq (Emits.plain .argAddAll rfl rfl)).mono ?_
  rintro _ p q z u _ ⟨r, ⟨hr, h⟩, hpos, h'⟩
  exact .two h hr h' hpos .append

/-- The caller's `...` is kept in the work slot. -/
lemma storeEllipsis (o : Operands Term) : HandsOn nested anon [] (Assemble.storeEllipsis o) := by
  unfold Assemble.storeEllipsis
  split
  · refine ((Emits.plain .loadEllipsis rfl rfl).seq (Emits.slotted .store rfl rfl)).mono ?_
    rintro _ p q z u _ ⟨r, ⟨hr, h⟩, hpos, h'⟩
    exact .two h hr (h' (by decide)) hpos .keep
  · exact nothing ()

lemma nameArguments {k : Nat} (hk : k < maxConstants) (names : List (Option Symbol))
    (position : Nat) (hle : position + names.length ≤ k) :
    HandsOn nested anon [] (Assemble.nameArguments names position) := by
  induction names generalizing position with
  | nil => exact nothing ()
  | cons name names ih =>
    rw [List.length_cons] at hle
    have hrest := ih (position + 1) (by omega)
    cases name with
    | none => exact hrest
    | some name =>
      refine ((Emits.nameIndex name).bind fun i => (Emits.emit
        (show [position, i].length = Opcode.nameAt.widths.length from rfl) rfl).seq hrest).mono ?_
      rintro _ p q z u _ ⟨i, _, ⟨rfl, hi, -⟩, r, ⟨hr, h⟩, hrest⟩
      exact (CodeUnit.Handed.one (h (Instruction.fits_pair rfl (by omega) hi))
        (Opcode.Quiet.instruction (by decide) fun hload => by cases hload) hr).trans hrest

/-- What is kept in the work slot is spliced at once. -/
lemma splice {op : Opcode} {o : Operands Term} (ho : Emits.Passable o) (hw : op.widths = [2])
    (hop : op.isJump = false) (hsplice : op = .spliceNames ∨ op = .spliceValues) :
    HandsOn nested anon [] (Assemble.splice op o) := by
  unfold Assemble.splice
  cases hi : o.ellipsisIndex? with
  | none => exact nothing ()
  | some n =>
    refine ((Emits.slotted .load rfl rfl).seq (Emits.indexed op hw hop)).mono ?_
    rintro _ p q z u _ ⟨r, ⟨hr, h⟩, hpos, h'⟩
    exact .two (h (by decide)) hr (h' (ho.position hi).2) hpos (.splice hsplice)

lemma pushBuiltinFrame {o : Operands Term} (ho : Emits.Passable o) :
    HandsOn nested anon [.site o.site] (Assemble.pushBuiltinFrame o) := by
  have hnames : HandsOn nested anon [] (Assemble.pushNames o) :=
    (indexed .newNames ho.count rfl rfl (by decide)).seq ((nameArguments ho.count o.names 0
      (by rw [ho.names]; omega)).seq (splice ho rfl rfl (.inl rfl)))
  exact (storeEllipsis o).seq (loadContext.seq (loadEnvironment.seq ((pushCall o.site).seq
    (hnames.seq (indexed .newValues ho.count rfl rfl (by decide))))))

/-! ### Calls -/

lemma dispatch {o : Operands Term} {closureArguments builtinValues : Assemble Unit}
    (ho : Emits.Passable o) (hargs : ∀ anon, HandsOn nested anon vs closureArguments)
    (hvalues : ∀ anon, HandsOn nested anon ws builtinValues) :
    HandsOn nested anon (.site o.site :: .site o.site :: (vs ++ .site o.site :: ws))
      (Assemble.dispatch o closureArguments builtinValues) := by
  rw [Emits.dispatch_eq]
  refine Emits.freshMark fun mb => Emits.freshMark fun mc => Emits.freshMark fun mf => ?_
  have hjump : ∀ (op : Opcode) (m : Mark), op.isJump = true →
      HandsOn nested (mf :: mc :: mb :: anon) [] (Assemble.jump op m) := fun op m => jump op m
  have htests := (plain .dup rfl rfl (by decide)).seq ((plain .isBuiltin rfl rfl (by decide)).seq
    ((jump .jumpIfNonZero mb rfl).seq ((plain .dup rfl rfl (by decide)).seq
      ((plain .isClosure rfl rfl (by decide)).seq
        (hjump .jumpIfNonZero mc rfl)))))
  have hspecial := loadContext.seq (loadEnvironment.seq ((pushCall o.site).seq
    ((plain .applySpecial rfl rfl (by decide)).seq
      (hjump .jump mf rfl))))
  have hclosure := (place mc (by simp)).seq ((plain .castClosure rfl rfl (by decide)).seq
    (loadContext.seq ((pushCall o.site).seq ((plain .newArgList rfl rfl (by decide)).seq
      ((hargs (mf :: mc :: mb :: anon)).seq ((plain .applyClosure rfl rfl (by decide)).seq
        (jump .jump mf rfl)))))))
  have hbuiltin := (place mb (by simp)).seq ((plain .castBuiltin rfl rfl (by decide)).seq
    ((pushBuiltinFrame ho).seq ((hvalues (mf :: mc :: mb :: anon)).seq
      ((splice ho rfl rfl (.inr rfl)).seq ((plain .applyBuiltin rfl rfl (by decide)).seq
        (place mf (by simp)))))))
  exact (htests.seq (hspecial.seq (hclosure.seq hbuiltin))).meets (by simp)

/-! ### Operands -/

mutual

/-- The code of a sober operand hands on what it pushes. -/
theorem term (nested : Nested) (anon : List Mark) : ∀ t : Term, t.Sober →
    HandsOn nested anon t.visits (Assemble.term nested t)
  | .int n, _ => (pushInt n).kind .int
  | .literal e, _ => (pushLiteral e).kind .value
  | .temp id, _ => loadSlot (.temp id) _
  | .local id name, _ => loadSlot (.local id) _
  | .env _, h => (loadVariable h).kind .value
  | .element vector index, h =>
    (((term nested anon vector h.1).boxed.seq ((term nested anon index h.2).unboxed.seq
      ((plain .elementAt rfl rfl (by decide)).kind .value))).meets (by simp [Flow.Term.visits]))
  | .length vector, h =>
    ((term nested anon vector h).boxed.seq ((plain .length rfl rfl (by decide)).kind .int)).meets
      (by simp [Flow.Term.visits])
  | .increment counter, h =>
    ((term nested anon counter h).unboxed.seq ((pushInt 1).seq
      ((plain .addInt rfl rfl (by decide)).kind .int))).meets (by simp [Flow.Term.visits])
  | .atLeast left right, h =>
    ((term nested anon left h.1).boxed.seq ((term nested anon right h.2).boxed.seq
      ((plain .greaterEqual rfl rfl (by decide)).kind .value))).meets (by simp [Flow.Term.visits])
  | .closure node procedure, _ => by
    refine ((Emits.closureIndex node procedure).bind fun i => Emits.seq loadEnvironment
      ((Emits.indexed .makeClosure rfl rfl).seq (Emits.nothing SlotKind.value))).mono ?_
    rintro _ p q z u _ ⟨i, _, ⟨rfl, hi, -⟩, r₁, henv, r₂, ⟨hr₂, h⟩, -, rfl⟩
    exact henv.trans (.one (h hi) (Opcode.Quiet.instruction (by decide) fun hload => by
      cases hload) hr₂)
  | .thunk _, h => (evaluateThunk h).kind .value
  | .ellipsis, _ => Emits.throw _
  | .primitive name ⟨site, args, names⟩, h => by
    refine Emits.checked fun ho => ?_
    cases hb : Builtin.ofName? name.name with
    | none => exact Emits.throw _
    | some b =>
      refine (((Emits.primitiveIndex name).bind fun i => Emits.seq (pushBuiltinFrame ho)
        (Emits.seq (builtinValues nested anon ho.count args 0 (by simp) h) (Emits.seq (splice ho rfl rfl (.inr rfl))
          ((Emits.indexed .callPrimitive rfl rfl).seq (Emits.nothing SlotKind.value))))).mono
            ?_).meets (by simp [Flow.Term.visits])
      rintro _ p q z u _ ⟨i, _, ⟨rfl, hi, -⟩, r₁, hframe, r₂, hvalues, r₃, hsplice, r₄, ⟨hr₄, h⟩,
        -, rfl⟩
      exact hframe.trans (hvalues.trans (hsplice.trans (.one (h hi)
        (Opcode.Quiet.instruction (by decide) fun hload => by cases hload) hr₄)))
  | .call (.name name) ⟨site, args, names⟩, h => by
    refine Emits.checked fun ho => ?_
    exact ((withName .findFunction name rfl rfl (by decide)).seq ((dispatch ho
      (fun anon => closureArguments nested anon args names ho.names h)
      (fun anon => builtinValues nested anon ho.count args 0 (by simp) h)).kind .value)).meets
        (by simp [Flow.Term.visits])
  | .call (.computed t) ⟨site, args, names⟩, h => by
    refine Emits.checked fun ho => ?_
    exact ((term nested anon t h.1).boxed.seq ((withCall .checkFunction site rfl rfl
      (by decide)).seq ((dispatch ho (fun anon => closureArguments nested anon args names ho.names h.2)
        (fun anon => builtinValues nested anon ho.count args 0 (by simp) h.2)).kind .value))).meets
          (by simp [Flow.Term.visits])

/-- So does the code of the arguments of a closure. -/
theorem closureArguments (nested : Nested) (anon : List Mark) :
    ∀ (ts : List Term) (names : List (Option Symbol)), names.length = ts.length →
      Flow.Term.SoberAll ts →
      HandsOn nested anon (Flow.Term.visitsOf ts) (Assemble.closureArguments nested ts names)
  | [], [], _, _ => nothing ()
  | t :: ts, name :: names, hlen, h => by
    have hrest := closureArguments nested anon ts names (Nat.succ.inj hlen) h.2
    cases t with
    | ellipsis => exact appendDots.seq hrest
    | thunk d =>
      refine cast (congrArg (HandsOn nested anon _) ?_) ((promised h.1 name).seq hrest)
      simp only [Assemble.closureArguments]
      cases d.name? <;> simp only [bind_assoc]
    | _ =>
      exact ((term nested anon _ h.1).boxed.seq ((addArgument name).seq hrest)).meets
        (by simp [Flow.Term.visitsOf])

/-- So does the code of the values of a builtin. -/
theorem builtinValues (nested : Nested) (anon : List Mark) {k : Nat} (hk : k < maxConstants) :
    ∀ (ts : List Term) (position : Nat), position + ts.length ≤ k → Flow.Term.SoberAll ts →
      HandsOn nested anon (Flow.Term.visitsOf ts) (Assemble.builtinValues nested ts position)
  | [], _, _, _ => nothing ()
  | t :: ts, position, hle, h => by
    rw [List.length_cons] at hle
    have hrest := (indexed .valueAt (n := position) (by omega) rfl rfl (by decide)).seq
      (builtinValues nested anon hk ts (position + 1) (by omega) h.2)
    cases t with
    | ellipsis => exact builtinValues nested anon hk ts (position + 1) (by omega) h.2
    | thunk d => exact (evaluateThunk h.1).seq hrest
    | _ => exact (term nested anon _ h.1).boxed.seq hrest

end

/-! ### Statements -/

lemma assignSlot (key : Flow.SlotKey) {value : Term} (hvalue : value.Sober) :
    HandsOn nested anon value.visits (Assemble.assignSlot nested key value) := by
  intro a x a' hc ha hm
  have hgrows := (Emits.assignSlot key value a x a' hc ha hm).1
  rw [Assemble.assignSlot, Assemble.get_bind_apply] at hc
  cases hcounter : Assemble.counterInPlace? a.options a.slots key value with
  | some slot =>
    rw [hcounter] at hc
    have hslot : ∃ key', a.slots.lookup? key' = some slot := by
      cases value with
      | increment counter =>
        simp only [Assemble.counterInPlace?] at hcounter
        split at hcounter
        · obtain ⟨key', -, hslot, -⟩ := Assemble.intSlot?_eq_some hcounter
          exact ⟨key', hslot⟩
        · cases hcounter
      | _ => cases hcounter
    obtain ⟨key', hslot⟩ := hslot
    have hinc : Emits nested anon [] (Assemble.emit .incLocal [slot.index]) _ :=
      slotted key' rfl rfl (by decide)
    exact ⟨hgrows, fun z u hz he =>
      (hinc a x a' hc ha hm).2 z u hz he ((hgrows.toExtends.trans he).slots _ _ hslot)⟩
  | none =>
    rw [hcounter] at hc
    have hstore : ∀ slot : Slot, Emits nested anon value.visits
        (slot.kind.casesOn
          (do
            Assemble.unboxed (Assemble.term nested value)
            Assemble.emit .storeInt [slot.index])
          (do
            Assemble.boxed (Assemble.term nested value)
            Assemble.emit .store [slot.index]) : Assemble Unit) fun _ p q z u =>
          z.slots.lookup? key = some slot → u.Handed p q := by
      intro slot
      cases slot.kind with
      | int =>
        refine (Emits.mono (Emits.seq (term nested anon value hvalue).unboxed
          (slotted key rfl rfl (by decide))) ?_).meets (List.append_nil _)
        rintro _ p q z u _ ⟨r, hterm, h⟩ hl
        exact hterm.trans (h hl)
      | value =>
        refine (Emits.mono (Emits.seq (term nested anon value hvalue).boxed
          (slotted key rfl rfl (by decide))) ?_).meets (List.append_nil _)
        rintro _ p q z u _ ⟨r, hterm, h⟩ hl
        exact hterm.trans (h hl)
    have hassign : HandsOn nested anon value.visits (Assemble.slotFor key
        (Assemble.kindOf a.options value) >>= fun slot => slot.kind.casesOn
          (do
            Assemble.unboxed (Assemble.term nested value)
            Assemble.emit .storeInt [slot.index])
          (do
            Assemble.boxed (Assemble.term nested value)
            Assemble.emit .store [slot.index])) := by
      refine ((Emits.slotFor key (Assemble.kindOf a.options value)).bind hstore).mono ?_
      rintro _ p q z u _ ⟨slot, _, ⟨rfl, hslot, -⟩, hstore⟩
      exact hstore hslot
    dsimp only at hc
    refine hassign a x a' (Eq.trans (congrFun (congrArg _ (funext fun slot => ?_)) a) hc) ha hm
    cases slot.kind <;> rfl

lemma assign (target : Target) {value : Term} (h : value.Sober) :
    HandsOn nested anon value.visits (Assemble.assign nested target value) := by
  cases target with
  | temp id => exact assignSlot (.temp id) h
  | «local» id name => exact assignSlot (.local id) h
  | env name =>
    exact ((term nested anon value h).boxed.seq
      (withName .setVariable name rfl rfl (by decide))).meets (List.append_nil _)

lemma branch {condition : Term} (h : condition.Sober) (yes no : Label) :
    HandsOn nested anon condition.visits (Assemble.branch nested condition yes no) := by
  refine ((resolve yes).bind fun my => (resolve no).bind fun mn => ?_).meets
    (List.nil_append _)
  intro a x a' hc ha hm
  rw [Assemble.get_bind_apply] at hc
  cases hn : Assemble.nativeComparison? a.options a.slots condition with
  | none =>
    rw [hn] at hc
    exact (((term nested anon condition h).boxed.seq ((plain .truthy rfl rfl (by decide)).seq
      ((jump .jumpIfZero mn rfl).seq (jump .jump my rfl)))).meets (by simp)) a x a' hc ha hm
  | some slots =>
    obtain ⟨b, c⟩ := slots
    rw [hn] at hc
    obtain ⟨left, right, rfl, hb, hc'⟩ := Emits.nativeComparison?_eq_some hn
    obtain ⟨kl, hkl, hlb, -⟩ := Assemble.intSlot?_eq_some hb
    obtain ⟨kr, hkr, hlc, -⟩ := Assemble.intSlot?_eq_some hc'
    have hcompare : Emits nested anon [] (do
        Assemble.emit .loadInt [b.index]
        Assemble.emit .loadInt [c.index]
        Assemble.jump .jumpIfIntLess mn
        Assemble.jump .jump my : Assemble Unit) fun _ p q z u =>
        z.slots.lookup? kl = some b → z.slots.lookup? kr = some c → u.Handed p q := by
      refine Emits.mono (Emits.seq (slotted kl rfl rfl (by decide)) (Emits.seq
        (slotted kr rfl rfl (by decide)) ((jump .jumpIfIntLess mn rfl).seq
          (jump .jump my rfl)))) ?_
      rintro _ p q z u _ ⟨r₁, hleft, r₂, hright, hjumps⟩ hl hr
      exact (hleft hl).trans ((hright hr).trans hjumps)
    obtain ⟨hg, hs⟩ := hcompare a x a' hc ha hm
    rw [Flow.Term.visits, (Flow.Term.of_slotKey? hkl).1, (Flow.Term.of_slotKey? hkr).1]
    refine ⟨hg, fun z u hz he => ?_⟩
    have hext := hg.toExtends.trans he
    exact hs z u hz he (hext.slots _ _ hlb) (hext.slots _ _ hlc)

theorem statement {s : Flow.Statement Term} (h : s.Sober) :
    HandsOn nested anon s.visits (Assemble.statement nested s) := by
  cases s with
  | assign target value => exact assign target (h value rfl)
  | eval value =>
    exact ((term nested anon value (h value rfl)).bind fun _ => plain .pop rfl rfl
      (by decide)).meets (List.append_nil _)
  | goto l => exact (resolve l).bind fun m => jump .jump m rfl
  | branch condition yes no => exact branch (h condition rfl) yes no
  | ret value =>
    exact ((term nested anon value (h value rfl)).boxed.seq (plain .ret rfl rfl
      (by decide))).meets (List.append_nil _)

theorem statements (ss : List (Flow.Statement Term)) (h : ∀ s ∈ ss, s.Sober) :
    HandsOn nested anon (ss.flatMap Flow.Statement.visits) (Assemble.statements nested ss) := by
  induction ss with
  | nil => exact nothing ()
  | cons s ss ih =>
    exact (statement (h s List.mem_cons_self)).seq (ih fun t ht => h t (List.mem_cons_of_mem s ht))

end HandsOn

/-! ## Units -/

/-- The code of a graph of sober statements hands on what it pushes. -/
lemma Lays.handed {nested : Nested} (g : Graph)
    (h : ∀ s ∈ g.flatMap Block.statements, s.Sober) :
    Lays nested ((g.flatMap Block.statements).flatMap Flow.Statement.visits)
      (g.flatMap Block.labels) (Assemble.blocks nested g) (fun p q _ u => u.Handed p q) := by
  induction g with
  | nil => exact of_emits (HandsOn.nothing ())
  | cons b g ih =>
    rw [List.flatMap_cons, List.flatMap_append, List.flatMap_cons]
    have hstatements : HandsOn nested [] (b.statements.flatMap Flow.Statement.visits)
        (Assemble.statements nested b.statements) :=
      .statements b.statements fun s hs => h s (List.mem_flatMap.2 ⟨b, List.mem_cons_self, hs⟩)
    have hblock := block b hstatements
    have hrest := ih fun s hs => by
      obtain ⟨c, hc, hs⟩ := List.mem_flatMap.1 hs
      exact h s (List.mem_flatMap.2 ⟨c, List.mem_cons_of_mem b hc, hs⟩)
    refine (hblock.seq hrest).mono ?_
    rintro p q z u _ ⟨r, ⟨-, hb⟩, hrest⟩
    exact hb.trans hrest

/-- The offsets in `B` are those of instructions that are executed one after the other, and what an
instruction there pushes that is no ordinary value is taken by the next one. -/
structure CodeUnit.HandsOn (u : CodeUnit) (B : Nat → Prop) : Prop where
  steps : u.Steps B
  hands : ∀ p i, B p → u.code.Holds p i →
    i.Quiet ∨ ∃ j, u.code.Holds (p + i.op.size) j ∧ Hands u i j

/-- Behind an instruction that is not the last one there begins another one, and none begins before. -/
lemma Instruction.At.next {is : List Instruction} {p t : Nat} {i j : Instruction} (hi : At is p i)
    (hj : At is t j) (hfit : i.Fits) (hlt : p < t) :
    p + i.op.size ≤ t ∧ ∃ k, At is (p + i.op.size) k := by
  obtain ⟨before, after, rfl, rfl⟩ := hi
  obtain ⟨before', after', heq, rfl⟩ := hj
  have hlength : ((before ++ [i]).flatMap encode).length
      = (before.flatMap encode).length + i.op.size := by
    simp [hfit.length_encode]
  rcases List.append_eq_append_iff.1 heq with ⟨rest, rfl, hrest⟩ | ⟨rest, rfl, -⟩
  · rcases List.cons_eq_append_iff.1 hrest with ⟨rfl, -⟩ | ⟨rest, rfl, rfl⟩
    · simp at hlt
    · rw [← hlength]
      refine ⟨by simp, ?_⟩
      cases rest with
      | nil => exact ⟨j, before ++ [i], after', by simp, rfl⟩
      | cons k rest => exact ⟨k, before ++ [i], rest ++ j :: after', by simp, rfl⟩
  · simp only [List.flatMap_append, List.length_append] at hlt
    omega

/-- In a stretch of code that hands on what it pushes, each instruction of the list that the code
consists of does so. -/
lemma CodeUnit.Handed.hands {u : CodeUnit} {p q : Nat} (h : u.Handed p q) {is : List Instruction}
    (hcode : u.code.toList = is.flatMap Instruction.encode) (hfit : ∀ i ∈ is, i.Fits)
    (hp : ∃ i, Instruction.At is p i) {t : Nat} {i : Instruction} (hi : Instruction.At is t i)
    (hle : p ≤ t) (hlt : t < q) :
    i.Quiet ∨ ∃ j, u.code.Holds (t + i.op.size) j ∧ Hands u i j := by
  have hholds : ∀ {t i}, Instruction.At is t i → u.code.Holds t i := fun hi =>
    hi.holds hcode (hfit _ hi.mem)
  have hnext : ∀ {r k}, u.code.Holds r k → (∃ i, Instruction.At is r i) → r < t →
      r + k.op.size ≤ t ∧ ∃ k', Instruction.At is (r + k.op.size) k' := by
    rintro r k hk ⟨k', hk'⟩ hr
    obtain rfl := hk.unique (hholds hk')
    exact hk'.next hi (hfit _ hk'.mem) hr
  induction h with
  | done => omega
  | @quiet p q k hk hquiet _ ih =>
    rcases Nat.eq_or_lt_of_le hle with rfl | hlt'
    · obtain rfl := hk.unique (hholds hi)
      exact .inl hquiet
    · obtain ⟨hle', hk'⟩ := hnext hk hp hlt'
      exact ih hk' hle' hlt
  | @pair p q k l hk hl hhands _ ih =>
    rcases Nat.eq_or_lt_of_le hle with rfl | hlt'
    · obtain rfl := hk.unique (hholds hi)
      exact .inr ⟨l, hl, hhands⟩
    · obtain ⟨hle', hk'⟩ := hnext hk hp hlt'
      rcases Nat.eq_or_lt_of_le hle' with rfl | hlt''
      · obtain rfl := hl.unique (hholds hi)
        exact .inl hhands.quiet
      · obtain ⟨hle'', hl'⟩ := hnext hl hk' hlt''
        exact ih hl' hle'' hlt

/-- **A unit that was made of a sober body hands on what it pushes.** -/
theorem Made.handsOn {nested : Nested} {name : String} {b : Body} {z : Assembly} {u : CodeUnit}
    (h : Made nested name b z u) (hb : b.Sober) : ∃ B, u.HandsOn B := by
  have hhanded : u.Handed 0 z.position := by
    refine h.lays _ _ _ (Lays.handed (Graph.ofBody b) ?_)
    refine Flow.Graph.forall_statements (fun l t ht => by cases ht) (fun t ht => ?_) fun s hs t ht =>
      hb t (List.mem_filterMap.2 ⟨s, hs, ht⟩)
    cases ht
    trivial
  obtain ⟨ks, hks⟩ := h.links.sound.draws
  have hcode := h.links.code_instructions hks
  have hfit := hks.fits_instructions
  have hsteps := h.links.steps hks
  have hat : ∀ {p i}, Sketch.Boundary ks p → u.code.Holds p i →
      p < z.position ∧ Instruction.At (z.instructions ks) p i := by
    intro p i hp hi
    have hlt : p < u.code.size := by
      by_contra hge
      have hread := hi.op
      rw [Array.getElem?_eq_none (Nat.le_of_not_lt hge)] at hread
      cases hread
    rw [h.links.size] at hlt
    obtain ⟨j, hj⟩ := hks.at_of_boundary hp hlt
    obtain rfl := hi.unique (hj.holds hcode (hfit _ hj.mem))
    exact ⟨hlt, hj⟩
  refine ⟨_, hsteps, fun p i hp hi => ?_⟩
  obtain ⟨hlt, hi⟩ := hat hp hi
  exact hhanded.hands hcode hfit (hks.at_of_boundary hsteps.start (Nat.lt_of_le_of_lt (Nat.zero_le p)
    hlt)) hi (Nat.zero_le p) hlt

end CallByNeed
