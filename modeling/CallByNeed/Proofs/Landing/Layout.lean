import CallByNeed.Proofs.Landing.Lines

/-!
# Where jumps lead

The code of a graph is that of its blocks, one after the other, and the code of a block is that of its
statements (`CodeUnit.BlocksAt`). A jump carries the offset where the block of its label begins: one
instruction for a jump that is always taken, and two for a branch, of which the first one leads to the
block for a condition that fails (`CodeUnit.StatementAt`).

A unit that was made of a body is laid out that way from its first byte to its last
(`Made.laysOut`).
-/

namespace CallByNeed

open CallByNeed.Flow (Term Label Target Statement Block Graph)

/-! ## Statements and blocks -/

/-- A label stands for the offset where its block begins. -/
def Flow.Graph.LandsAt (g : Graph) (starts : List Nat) (l : Label) (t : Nat) : Prop :=
  ∃ i, g.blockOf? l = some i ∧ starts[i]? = some t

namespace CodeUnit

variable (u : CodeUnit) (lands : Label → Nat → Prop)

/-- The code of a statement from one offset to another, where labels stand for offsets. -/
inductive StatementAt : Statement Term → Nat → Nat → Prop where
  | assign {target : Target} {value : Term} {p q : Nat} (hvalue : u.Lined value.calls p q) :
    StatementAt (.assign target value) p q
  | eval {value : Term} {p q : Nat} (hvalue : u.Lined value.calls p q) :
    StatementAt (.eval value) p q
  | goto {l : Label} {p t : Nat} (hl : lands l t) (h : u.code.Holds p ⟨.jump, [t]⟩) :
    StatementAt (.goto l) p (p + 3)
  | branch {condition : Term} {yes no : Label} {op : Opcode} {p r ty tn : Nat}
    (hcondition : u.Lined condition.calls p r) (hop : op = .jumpIfZero ∨ op = .jumpIfIntLess)
    (hno : lands no tn) (h : u.code.Holds r ⟨op, [tn]⟩)
    (hyes : lands yes ty) (h' : u.code.Holds (r + 3) ⟨.jump, [ty]⟩) :
    StatementAt (.branch condition yes no) p (r + 6)
  | ret {value : Term} {p r : Nat} (hvalue : u.Lined value.calls p r) (h : u.Reads r .ret) :
    StatementAt (.ret value) p (r + 1)

/-- The code of statements in order. -/
def StatementsAt : List (Statement Term) → Nat → Nat → Prop
  | [], p, q => p = q
  | s :: ss, p, q => ∃ r, u.StatementAt lands s p r ∧ StatementsAt ss r q

/-- The code of blocks in order, which begin at these offsets. -/
def BlocksAt : Graph → List Nat → Nat → Nat → Prop
  | [], [], p, q => p = q
  | b :: g, start :: starts, p, q =>
    start = p ∧ ∃ r, u.StatementsAt lands b.statements p r ∧ BlocksAt g starts r q
  | _, _, _, _ => False

/-- The unit is the code of a graph whose blocks begin at these offsets. -/
def LaysOut (g : Graph) (starts : List Nat) : Prop :=
  u.BlocksAt (g.LandsAt starts) g starts 0 u.code.size

variable {u} {lands} {lands' : Label → Nat → Prop} {p q : Nat}

lemma StatementAt.mono (hl : ∀ l t, lands l t → lands' l t) {s : Statement Term}
    (h : u.StatementAt lands s p q) : u.StatementAt lands' s p q := by
  cases h with
  | assign hvalue => exact .assign hvalue
  | eval hvalue => exact .eval hvalue
  | goto hgoto h => exact .goto (hl _ _ hgoto) h
  | branch hcondition hop hno h hyes h' =>
    exact .branch hcondition hop (hl _ _ hno) h (hl _ _ hyes) h'
  | ret hvalue h => exact .ret hvalue h

lemma StatementsAt.mono (hl : ∀ l t, lands l t → lands' l t) {ss : List (Statement Term)}
    (h : u.StatementsAt lands ss p q) : u.StatementsAt lands' ss p q := by
  induction ss generalizing p with
  | nil => exact h
  | cons s ss ih =>
    obtain ⟨r, hs, hss⟩ := h
    exact ⟨r, hs.mono hl, ih hss⟩

lemma BlocksAt.mono (hl : ∀ l t, lands l t → lands' l t) {g : Graph} {starts : List Nat}
    (h : u.BlocksAt lands g starts p q) : u.BlocksAt lands' g starts p q := by
  induction g generalizing starts p with
  | nil =>
    cases starts with
    | nil => exact h
    | cons start starts => exact h.elim
  | cons b g ih =>
    cases starts with
    | nil => exact h.elim
    | cons start starts =>
      obtain ⟨hstart, r, hb, hg⟩ := h
      exact ⟨hstart, r, hb.mono hl, ih hg⟩

end CodeUnit

/-! ## Emitting statements -/

/-- An operand with a slot makes no calls. -/
lemma Flow.Term.calls_of_slotKey? {t : Term} {key : Flow.SlotKey} (h : t.slotKey? = some key) :
    t.calls = .none := by
  cases t <;> first | rfl | cases h

namespace Lines

variable {nested : Nested}

/-- Assigning a slot, in place or by a store. -/
lemma assignSlot (key : Flow.SlotKey) (value : Term) :
    Lines nested value.visits value.calls (Assemble.assignSlot nested key value) := by
  intro anon a x a' hc ha hm
  rw [Assemble.assignSlot, Assemble.get_bind_apply] at hc
  cases hcounter : Assemble.counterInPlace? a.options a.slots key value with
  | some slot =>
    rw [hcounter] at hc
    have hquiet : value.visits = [] ∧ value.calls = .none := by
      cases value with
      | increment counter =>
        simp only [Assemble.counterInPlace?] at hcounter
        split at hcounter
        · rename_i hfast
          exact ⟨(Flow.Term.of_slotKey? hfast.2).1,
            (Flow.Term.calls_of_slotKey? hfast.2 : counter.calls = .none)⟩
        · cases hcounter
      | _ => cases hcounter
    rw [hquiet.1, hquiet.2]
    exact emit .incLocal [slot.index] rfl rfl (by decide) anon a x a' hc ha hm
  | none =>
    rw [hcounter] at hc
    have hslot : Lines nested [] .none (Assemble.slotFor key (Assemble.kindOf a.options value)) :=
      quiet (fun _ => Emits.slotFor key _) fun _ _ _ _ _ h => h.1
    refine hslot.bind (fun slot => ?_) anon a x a' hc ha hm
    obtain ⟨index, kind⟩ := slot
    cases kind with
    | int =>
      exact ((term nested value).unboxed.seq (emit .storeInt [index] rfl rfl (by decide))).meets
        (List.append_nil _) (Calls.append_none _)
    | value =>
      exact ((term nested value).boxed.seq (emit .store [index] rfl rfl (by decide))).meets
        (List.append_nil _) (Calls.append_none _)

/-- Assigning. -/
lemma assign (target : Target) (value : Term) :
    Lines nested value.visits value.calls (Assemble.assign nested target value) := by
  cases target with
  | temp id => exact assignSlot (.temp id) value
  | «local» id name => exact assignSlot (.local id) value
  | env name =>
    exact ((term nested value).boxed.seq ((nameIndex name).bind fun i =>
      emit .setVariable [i] rfl rfl (by decide))).meets (List.append_nil _) (Calls.append_none _)

end Lines

namespace Emits

variable {nested : Nested} {anon : List Mark}

/-- The two jumps of a branch, behind the code that compares. -/
lemma branchJumps {condition : Term} (yes no : Label) (my mn : Mark) {op : Opcode}
    {compare : Assemble Unit} (hop : op = .jumpIfZero ∨ op = .jumpIfIntLess)
    (hcompare : Lines nested condition.visits condition.calls compare) :
    Emits nested anon condition.visits (do
        compare
        Assemble.jump op mn
        Assemble.jump .jump my : Assemble Unit) (fun _ p q z u =>
      z.jumps.labels[yes.id]? = some my.index → z.jumps.labels[no.id]? = some mn.index →
        u.StatementAt z.LabelAt (.branch condition yes no) p q) := by
  have hjump : op.isJump = true ∧ op.size = 3 := by
    rcases hop with rfl | rfl <;> exact ⟨rfl, rfl⟩
  refine (((hcompare anon).seq ((jump op mn hjump.1).seq (jump .jump my rfl))).mono ?_).meets
    (List.append_nil _)
  rintro _ p q z u _ ⟨r, hcode, _, ⟨rfl, tn, htn, hno⟩, rfl, ty, hty, hyes⟩ hly hln
  rw [hjump.2] at hyes ⊢
  exact .branch hcode hop ⟨_, hln, htn⟩ hno ⟨_, hly, hty⟩ hyes

/-- A branch. -/
lemma branchAt (condition : Term) (yes no : Label) :
    Emits nested anon condition.visits (Assemble.branch nested condition yes no)
      (fun _ p q z u => u.StatementAt z.LabelAt (.branch condition yes no) p q) := by
  refine targets fun my mn => ?_
  intro a x a' hc ha hm
  rw [Assemble.get_bind_apply] at hc
  cases hn : Assemble.nativeComparison? a.options a.slots condition with
  | none =>
    rw [hn] at hc
    have hcompare : Lines nested condition.visits condition.calls (do
        Assemble.boxed (Assemble.term nested condition)
        Assemble.emit .truthy []) :=
      ((Lines.term nested condition).boxed.seq (Lines.emit .truthy [] rfl rfl (by decide))).meets
        (List.append_nil _) (Calls.append_none _)
    have h : Emits nested anon _ _ _ := branchJumps yes no my mn (.inl rfl) hcompare
    simp only [bind_assoc] at h
    exact h a x a' hc ha hm
  | some slots =>
    obtain ⟨b, c⟩ := slots
    rw [hn] at hc
    obtain ⟨left, right, rfl, hb, hc'⟩ := nativeComparison?_eq_some hn
    obtain ⟨kl, hkl, -, -⟩ := Assemble.intSlot?_eq_some hb
    obtain ⟨kr, hkr, -, -⟩ := Assemble.intSlot?_eq_some hc'
    have hvisits : (Term.atLeast left right).visits = [] := by
      rw [Flow.Term.visits, (Flow.Term.of_slotKey? hkl).1, (Flow.Term.of_slotKey? hkr).1]
      rfl
    have hcalls : (Term.atLeast left right).calls = .none := by
      rw [Flow.Term.calls, Flow.Term.calls_of_slotKey? hkl, Flow.Term.calls_of_slotKey? hkr]
      rfl
    have hcompare : Lines nested (Term.atLeast left right).visits
        (Term.atLeast left right).calls (do
        Assemble.emit .loadInt [b.index]
        Assemble.emit .loadInt [c.index]) :=
      ((Lines.emit .loadInt [b.index] rfl rfl (by decide)).seq
        (Lines.emit .loadInt [c.index] rfl rfl (by decide))).meets hvisits.symm hcalls.symm
    have h : Emits nested anon _ _ _ := branchJumps yes no my mn (.inr rfl) hcompare
    simp only [bind_assoc] at h
    exact h a x a' hc ha hm

/-- A statement. -/
theorem statementAt (s : Statement Term) :
    Emits nested anon s.visits (Assemble.statement nested s)
      (fun _ p q z u => u.StatementAt z.LabelAt s p q) := by
  cases s with
  | assign target value =>
    exact (Lines.assign target value anon).mono fun _ _ _ _ _ _ h => .assign h
  | eval value =>
    have h : Lines nested value.visits value.calls (Assemble.statement nested (.eval value)) :=
      ((Lines.term nested value).bind fun _ => Lines.emit .pop [] rfl rfl (by decide)).meets
        (List.append_nil _) (Calls.append_none _)
    exact (h anon).mono fun _ _ _ _ _ _ h => .eval h
  | goto l =>
    refine (jumpTo .jump l rfl).mono ?_
    rintro _ p _ z u _ ⟨rfl, t, hl, h⟩
    exact .goto hl h
  | branch condition yes no => exact branchAt condition yes no
  | ret value =>
    refine ((((Lines.term nested value).boxed anon).seq (plain .ret rfl rfl)).mono ?_).meets
      (List.append_nil _)
    rintro _ p _ z u _ ⟨r, hvalue, rfl, h⟩
    exact .ret hvalue h.op

/-- Statements in order. -/
theorem statementsAt (ss : List (Statement Term)) :
    Emits nested anon (ss.flatMap Statement.visits) (Assemble.statements nested ss)
      (fun _ p q z u => u.StatementsAt z.LabelAt ss p q) := by
  induction ss with
  | nil => exact (nothing ()).mono fun _ _ _ _ _ _ h => h.2.symm
  | cons s ss ih => exact ((statementAt s).seq ih).mono fun _ _ _ _ _ _ h => h

end Emits

/-! ## Graphs and units -/

/-- Two things said of one piece of emitting. -/
lemma Emits.and {α : Type} {nested : Nested} {anon : List Mark} {vs : List Visit} {c : Assemble α}
    {S S' : α → Nat → Nat → Assembly → CodeUnit → Prop} (h : Emits nested anon vs c S)
    (h' : Emits nested anon vs c S') :
    Emits nested anon vs c (fun x p q z u => S x p q z u ∧ S' x p q z u) := by
  intro a x a' hc ha hm
  obtain ⟨hg, hs⟩ := h a x a' hc ha hm
  obtain ⟨-, hs'⟩ := h' a x a' hc ha hm
  exact ⟨hg, fun z u hz he => ⟨hs z u hz he, hs' z u hz he⟩⟩

/-- Laying out a graph, said at once what its code does and what it looks like. -/
theorem Lays.blocksAt {nested : Nested} (g : Graph) :
    Lays nested ((g.flatMap Block.statements).flatMap Statement.visits) (g.flatMap Block.labels)
      (Assemble.blocks nested g) (fun p q z u =>
        ∃ starts, Laid g starts z u ∧ u.BlocksAt z.LabelAt g starts p q) := by
  induction g with
  | nil =>
    refine (of_emits (Emits.nothing ())).mono ?_
    rintro p q z u _ ⟨-, rfl⟩
    exact ⟨[], .nil, rfl⟩
  | cons b g ih =>
    rw [List.flatMap_cons, List.flatMap_append, List.flatMap_cons]
    refine ((Lays.block b ((Emits.statements b.statements).and
      (Emits.statementsAt b.statements))).seq ih).mono ?_
    rintro p q z u _ ⟨r, ⟨hlabels, hcode, hstatements⟩, starts, hlaid, hblocks⟩
    exact ⟨p :: starts, hlaid.cons hlabels hcode, rfl, r, hstatements, hblocks⟩

/-- **The code of a body is laid out block by block**, and its jumps lead to where the blocks of
their labels begin. -/
theorem Made.laysOut {nested : Nested} {name : String} {b : Flow.Body} {z : Assembly} {u : CodeUnit}
    (h : Made nested name b z u) :
    ∃ starts, Laid (Graph.ofBody b) starts z u ∧ u.LaysOut (Graph.ofBody b) starts := by
  obtain ⟨starts, hlaid, hblocks⟩ := h.lays _ _ _ (Lays.blocksAt (Graph.ofBody b))
  refine ⟨starts, hlaid, ?_⟩
  rw [CodeUnit.LaysOut, h.links.size]
  exact hblocks.mono fun l t hl => hlaid.blockOf? h.binds hl

end CallByNeed
