import CallByNeed.Proofs.Code.Unit
import CallByNeed.Proofs.Discipline.Operand

/-!
# The layouts of a unit

Between statements the stack is empty, so that all jumps between blocks agree on the layout where
they meet: there is nothing on the stack. Since every label that is bound is that of a block, and
every block ends in a transfer of control, the code of a body has a chart that is never left
(`Made.charted`).
-/

namespace CallByNeed

open CallByNeed.Flow (Term Label Target Block Graph)

/-! ## Statements -/

/-- The exits of code that leaves an empty stack: at a label, or behind itself at `q` unless it is
closed by a transfer of control. -/
def Exits (closed : Bool) (q : Nat) (z : Assembly) (t : Nat) (Δ : Layout) : Prop :=
  Δ = [] ∧ ((closed = false ∧ t = q) ∨ ∃ l, z.LabelAt l t)

/-- Code that is begun on an empty stack and leaves one. Closed code is not empty. -/
structure Runs (closed : Bool) (p q : Nat) (z : Assembly) (u : CodeUnit) : Prop where
  region : Region z.slots u p [] q (Exits closed q z)
  lt : closed = true → p < q

namespace Runs

variable {z : Assembly} {u : CodeUnit} {p q r : Nat} {closed : Bool}

/-- Code that leaves nothing on the stack. -/
lemma of_leaves (h : Leaves [] [] p q z u) : Runs false p q z u where
  region := (h []).mono fun _ _ ⟨ht, hΔ⟩ => ⟨hΔ, .inl ⟨rfl, ht⟩⟩
  lt h := by cases h

/-- Code that returns. -/
lemma of_return (h : Leaves [] [.value] p r z u) (hi : u.code.Holds r ⟨.ret, []⟩) :
    Runs true p (r + Opcode.ret.size) z u where
  region := (h []).andThen (.one hi .ret (by simp))
  lt _ := Nat.lt_of_le_of_lt (h []).le (Nat.lt_add_of_pos_right Opcode.ret.size_pos)

/-- Code that ends in a jump. -/
lemma of_jump {l : Label} {t : Nat} (h : Region z.slots u p [] r (Exits false r z))
    (hi : u.code.Holds r ⟨.jump, [t]⟩) (hl : z.LabelAt l t) :
    Runs true p (r + Opcode.jump.size) z u where
  region := by
    refine h.join (.one hi (.jump t []) ?_) (fun t Θ ht => ?_) fun _ _ ht => ht
    · simpa using ⟨rfl, .inr ⟨l, hl⟩⟩
    · obtain ⟨rfl, ht⟩ := ht
      by_cases htr : t = r
      · exact .inl ⟨htr, rfl⟩
      · exact .inr ⟨htr, rfl, .inr (ht.resolve_left fun h => htr h.2)⟩
  lt _ := Nat.lt_of_le_of_lt h.le (Nat.lt_add_of_pos_right Opcode.jump.size_pos)

/-- One piece of code after the other. -/
lemma andThen {first : Bool} (h : Runs first p r z u) (h' : Runs closed r q z u) :
    Runs closed p q z u where
  region := by
    refine h.region.join h'.region (fun t Θ ht => ?_) fun _ _ ht => ht
    obtain ⟨rfl, ht⟩ := ht
    by_cases htr : t = r
    · exact .inl ⟨htr, rfl⟩
    · exact .inr ⟨htr, rfl, .inr (ht.resolve_left fun h => htr h.2)⟩
  lt hc := Nat.lt_of_le_of_lt h.region.le (h'.lt hc)

end Runs

namespace Emits

variable {nested : Nested} {anon : List Mark}

/-- Increasing a counter in place. -/
lemma leaves_incLocal (nested : Nested) {a : Assembly} {key : Flow.SlotKey} {t : Term} {slot : Slot}
    (h : Assemble.counterInPlace? a.options a.slots key t = some slot) {x : Unit} {a' : Assembly}
    (hc : Assemble.emit .incLocal [slot.index] a = .ok x a') (ha : a.Sound) :
    a.Grows nested [] a' ∧
      ∀ z u, z.Links u → a'.Extends z → Leaves [] [] a.position a'.position z u := by
  cases t with
  | increment counter =>
    simp only [Assemble.counterInPlace?] at h
    split at h
    · obtain ⟨key', -, hslot, hkind⟩ := Assemble.intSlot?_eq_some h
      have hemits : Emits nested [] [] (Assemble.emit .incLocal [slot.index]) _ := slotted .incLocal rfl rfl
      obtain ⟨hg, hs⟩ := hemits a x a' hc ha (by simp)
      refine ⟨hg, fun z u hz he => ?_⟩
      obtain ⟨hq, hi⟩ := hs z u hz he
      have hlz := (hg.toExtends.trans he).slots _ _ hslot
      have hlt := Nat.lt_of_lt_of_le (hz.sound.slots.range hlz).2 hz.sound.slots.bound
      obtain ⟨index, kind⟩ := slot
      obtain rfl : kind = .int := hkind
      exact .one (hi hlt) (.incLocal hlz) hq
    · cases h
  | _ => cases h

/-- Storing in the slot that was handed out for a key. -/
lemma leaves_storeSlot {key : Flow.SlotKey} {options : CompilerOptions} (value : Term) :
    Emits nested anon value.visits (do
        let slot ← Assemble.slotFor key (Assemble.kindOf options value)
        match slot.kind with
        | .int =>
          Assemble.unboxed (Assemble.term nested value)
          Assemble.emit .storeInt [slot.index]
        | .value =>
          Assemble.boxed (Assemble.term nested value)
          Assemble.emit .store [slot.index] : Assemble Unit) (fun _ => Leaves [] []) := by
  have hstore : ∀ slot : Slot, Emits nested anon value.visits
      (match slot.kind with
        | .int => do
          Assemble.unboxed (Assemble.term nested value)
          Assemble.emit .storeInt [slot.index]
        | .value => do
          Assemble.boxed (Assemble.term nested value)
          Assemble.emit .store [slot.index] : Assemble Unit) (fun _ p q z u =>
        z.slots.lookup? key = some slot → slot.index < maxSlots → Leaves [] [] p q z u) := by
    intro slot
    obtain ⟨index, kind⟩ := slot
    cases kind with
    | int =>
      refine (((leaves_unboxed (leaves_term nested anon value)).seq (slotted .storeInt rfl rfl)).mono
        ?_).meets (by simp)
      rintro _ p q z u _ ⟨r, hterm, hq, h⟩ hslot hlt
      exact hterm.trans (.one (h hlt) (.storeInt hslot) hq)
    | value =>
      refine (((leaves_boxed (leaves_term nested anon value)).seq (slotted .store rfl rfl)).mono
        ?_).meets (by simp)
      rintro _ p q z u _ ⟨r, hterm, hq, h⟩ hslot hlt
      exact hterm.trans (.one (h hlt) (.store hslot) hq)
  refine ((slotFor key (Assemble.kindOf options value)).bind hstore).mono ?_
  rintro _ p q z u hz ⟨slot, _, ⟨rfl, hslot, -⟩, hstore⟩
  exact hstore hslot (Nat.lt_of_lt_of_le (hz.sound.slots.range hslot).2 hz.sound.slots.bound)

lemma leaves_assignSlot (key : Flow.SlotKey) (value : Term) :
    Emits nested anon value.visits (Assemble.assignSlot nested key value)
      (fun _ => Leaves [] []) := by
  intro a x a' hc ha hm
  have hgrows := (assignSlot key value a x a' hc ha hm).1
  rw [Assemble.assignSlot, Assemble.get_bind_apply] at hc
  cases hcounter : Assemble.counterInPlace? a.options a.slots key value with
  | some slot =>
    rw [hcounter] at hc
    exact ⟨hgrows, (leaves_incLocal nested hcounter hc ha).2⟩
  | none =>
    rw [hcounter] at hc
    exact leaves_storeSlot value a x a' hc ha hm

lemma leaves_assign (target : Target) (value : Term) :
    Emits nested anon value.visits (Assemble.assign nested target value)
      (fun _ => Leaves [] []) := by
  cases target with
  | temp id => exact leaves_assignSlot (.temp id) value
  | «local» id name => exact leaves_assignSlot (.local id) value
  | env name =>
    refine (((leaves_boxed (leaves_term nested anon value)).seq ((nameIndex name).bind fun i =>
      indexed .setVariable rfl rfl)).mono ?_).meets (by simp)
    rintro _ p q z u _ ⟨r, hterm, i, _, ⟨rfl, hi, hc⟩, hq, h⟩
    exact hterm.trans (.one (h hi) (.setVariable hc) hq)

/-- Branching on a value. -/
lemma runs_branchValue (condition : Term) (yes no : Label) (my mn : Mark) :
    Emits nested anon condition.visits (do
        Assemble.boxed (Assemble.term nested condition)
        Assemble.emit .truthy []
        Assemble.jump .jumpIfZero mn
        Assemble.jump .jump my : Assemble Unit) (fun _ p q z u =>
      z.jumps.labels[yes.id]? = some my.index → z.jumps.labels[no.id]? = some mn.index →
        Runs true p q z u) := by
  refine (((leaves_boxed (leaves_term nested anon condition)).seq ((plain .truthy rfl rfl).seq
    ((jump .jumpIfZero mn rfl).seq (jump .jump my rfl)))).mono ?_).meets (by simp)
  rintro _ p q z u _ ⟨r₁, hterm, r₂, ⟨hr₂, h⟩, r₃, ⟨hr₃, tn, htn, hno⟩, hq, ty, hty, hyes⟩
    hly hln
  have hcode : Leaves [] [.int] p r₂ z u := hterm.trans (.one h .truthy hr₂)
  rw [hq]
  refine Runs.of_jump ((hcode []).andThen ?_) hyes ⟨my.index, hly, hty⟩
  rw [hr₃]
  refine .one hno (.jumpIfZero tn []) ?_
  simpa using ⟨⟨rfl, .inl ⟨rfl, rfl⟩⟩, rfl, .inr ⟨no, mn.index, hln, htn⟩⟩

/-- Branching on a native comparison. -/
lemma runs_branchInts (kl kr : Flow.SlotKey) {a b : Slot} (yes no : Label) (my mn : Mark) :
    Emits nested anon [] (do
        Assemble.emit .loadInt [a.index]
        Assemble.emit .loadInt [b.index]
        Assemble.jump .jumpIfIntLess mn
        Assemble.jump .jump my : Assemble Unit) (fun _ p q z u =>
      (z.slots.lookup? kl = some a ∧ a.kind = .int) →
      (z.slots.lookup? kr = some b ∧ b.kind = .int) → z.slots.Sound →
      z.jumps.labels[yes.id]? = some my.index → z.jumps.labels[no.id]? = some mn.index →
        Runs true p q z u) := by
  refine ((slotted .loadInt rfl rfl).seq ((slotted .loadInt rfl rfl).seq
    ((jump .jumpIfIntLess mn rfl).seq (jump .jump my rfl)))).mono ?_
  rintro _ p q z u _ ⟨r₁, ⟨hr₁, h₁⟩, r₂, ⟨hr₂, h₂⟩, r₃, ⟨hr₃, tn, htn, hno⟩, hq, ty, hty, hyes⟩
    ⟨hla, hka⟩ ⟨hlb, hkb⟩ hsound hly hln
  have hlta := Nat.lt_of_lt_of_le (hsound.range hla).2 hsound.bound
  have hltb := Nat.lt_of_lt_of_le (hsound.range hlb).2 hsound.bound
  obtain ⟨ia, _⟩ := a
  obtain ⟨ib, _⟩ := b
  obtain rfl := hka
  obtain rfl := hkb
  have hcode : Leaves [] [.int, .int] p r₂ z u :=
    (Leaves.one (h₁ hlta) (.loadInt hla) hr₁).trans
      ((Leaves.one (h₂ hltb) (.loadInt hlb) hr₂).under [.int])
  rw [hq]
  refine Runs.of_jump ((hcode []).andThen ?_) hyes ⟨my.index, hly, hty⟩
  rw [hr₃]
  refine .one hno (.jumpIfIntLess tn []) ?_
  simpa using ⟨⟨rfl, .inl ⟨rfl, rfl⟩⟩, rfl, .inr ⟨no, mn.index, hln, htn⟩⟩

/-- A branch. -/
lemma runs_branch (condition : Term) (yes no : Label) :
    Emits nested anon condition.visits (Assemble.branch nested condition yes no)
      (fun _ => Runs true) := by
  refine targets fun my mn => ?_
  intro a x a' hc ha hm
  rw [Assemble.get_bind_apply] at hc
  cases hn : Assemble.nativeComparison? a.options a.slots condition with
  | none =>
    rw [hn] at hc
    exact runs_branchValue condition yes no my mn a x a' hc ha hm
  | some slots =>
    obtain ⟨b, c⟩ := slots
    rw [hn] at hc
    obtain ⟨left, right, rfl, hb, hc'⟩ := nativeComparison?_eq_some hn
    obtain ⟨kl, hkl, hlb, hkb⟩ := Assemble.intSlot?_eq_some hb
    obtain ⟨kr, hkr, hlc, hkc⟩ := Assemble.intSlot?_eq_some hc'
    obtain ⟨hg, hs⟩ := runs_branchInts kl kr yes no my mn a x a' hc ha hm
    rw [Flow.Term.visits, (Flow.Term.of_slotKey? hkl).1, (Flow.Term.of_slotKey? hkr).1]
    refine ⟨hg, fun z u hz he hly hln => ?_⟩
    have hext := hg.toExtends.trans he
    exact hs z u hz he ⟨hext.slots _ _ hlb, hkb⟩ ⟨hext.slots _ _ hlc, hkc⟩ hz.sound.slots hly hln

/-- **The code of a statement** is begun on an empty stack and leaves one. -/
theorem runs_statement (s : Flow.Statement Term) :
    Emits nested anon s.visits (Assemble.statement nested s) (fun _ => Runs s.isTransfer) := by
  cases s with
  | assign target value =>
    exact (leaves_assign target value).mono fun _ _ _ _ _ _ h => .of_leaves h
  | eval value =>
    refine (((leaves_term nested anon value).bind fun _ => plain .pop rfl rfl).mono ?_).meets (by
      simp [Flow.Statement.visits])
    rintro _ p q z u _ ⟨kind, r, hterm, hq, h⟩
    cases kind with
    | int => exact .of_leaves (hterm.trans (.one h .popInt hq))
    | value => exact .of_leaves (hterm.trans (.one h .popValue hq))
  | goto l =>
    refine (jumpTo .jump l rfl).mono ?_
    rintro _ p q z u _ ⟨hq, t, hl, h⟩
    rw [hq]
    exact .of_jump (.empty ⟨rfl, .inl ⟨rfl, rfl⟩⟩) h hl
  | branch condition yes no => exact runs_branch condition yes no
  | ret value =>
    refine (((leaves_boxed (leaves_term nested anon value)).seq (plain .ret rfl rfl)).mono ?_).meets (by
      simp [Flow.Statement.visits])
    rintro _ p q z u _ ⟨r, hterm, hq, h⟩
    rw [hq]
    exact .of_return hterm h

/-- Statements of which the last one transfers control. -/
theorem runs_statements {last : Flow.Statement Term} (hlast : last.isTransfer = true) :
    ∀ first : List (Flow.Statement Term),
      Emits nested anon ((first ++ [last]).flatMap Flow.Statement.visits)
        (Assemble.statements nested (first ++ [last])) (fun _ => Runs true)
  | [] => by
    refine ((runs_statement last).seq (nothing ())).mono ?_
    rintro _ p q z u _ ⟨r, h, -, rfl⟩
    rw [← hlast]
    exact h
  | s :: first => by
    refine ((runs_statement s).seq (runs_statements hlast first)).mono ?_
    rintro _ p q z u _ ⟨r, h, hrest⟩
    exact h.andThen hrest

end Emits

/-! ## Blocks -/

/-- The code of a graph between two offsets: it is left at labels only, and the labels of its blocks
lie where the stack is empty. -/
def RunsGraph (g : Graph) (p q : Nat) (z : Assembly) (u : CodeUnit) : Prop :=
  ∃ T, Charts z.slots u p [] q (Exits true q z) T ∧
    ∀ b ∈ g, ∀ l ∈ b.labels, ∃ t, z.LabelAt l t ∧ T t = some []

/-- The chart of closed code begins with an empty stack. -/
lemma Charts.at_start {z : Assembly} {u : CodeUnit} {p q : Nat} {T : Nat → Option Layout}
    (h : Charts z.slots u p [] q (Exits true q z) T) (hlt : p < q) : T p = some [] := by
  rcases h.entry with ⟨-, hp⟩ | ⟨rfl, -⟩
  · exact hp
  · exact absurd hlt (Nat.lt_irrefl p)

/-- The code of a closed block. -/
lemma Lays.runs_block {nested : Nested} {b : Block} (hb : b.Closed) :
    Lays nested (b.statements.flatMap Flow.Statement.visits) b.labels (Assemble.block nested b)
      (fun p q z u => (∀ l ∈ b.labels, z.LabelAt l p) ∧ Runs true p q z u) := by
  obtain ⟨first, last, hstatements, hlast⟩ := hb
  exact block b (hstatements ▸ Emits.runs_statements hlast first)

/-- The code of closed blocks, laid out one after the other. -/
theorem Lays.runs_blocks {nested : Nested} (b : Block) (g : Graph)
    (hclosed : ∀ c ∈ b :: g, c.Closed) :
    Lays nested (((b :: g).flatMap Block.statements).flatMap Flow.Statement.visits)
      ((b :: g).flatMap Block.labels) (Assemble.blocks nested (b :: g)) (RunsGraph (b :: g)) := by
  have hb : b.Closed := hclosed b (by simp)
  induction g generalizing b with
  | nil =>
    rw [List.flatMap_cons, List.flatMap_append, List.flatMap_cons]
    refine ((runs_block hb).seq (of_emits (Emits.nothing ()))).mono ?_
    rintro p q z u _ ⟨r, ⟨hlabels, ⟨T, hT⟩, hlt⟩, -, rfl⟩
    refine ⟨T, hT, fun c hc l hl => ?_⟩
    obtain rfl := List.mem_singleton.1 hc
    exact ⟨p, hlabels l hl, hT.at_start (hlt rfl)⟩
  | cons b' g ih =>
    have hrest := ih b' (fun c hc => hclosed c (by simp [List.mem_cons.1 hc]))
      (hclosed b' (by simp))
    rw [List.flatMap_cons, List.flatMap_append, List.flatMap_cons]
    refine ((runs_block hb).seq hrest).mono ?_
    rintro p q z u _ ⟨r, ⟨hlabels, ⟨T₁, hT₁⟩, hlt⟩, T₂, hT₂, hstarts⟩
    refine ⟨Charts.both r T₁ T₂, hT₁.join hT₂ (fun t Θ ht => ?_) (fun _ _ ht => ht),
      fun c hc l hl => ?_⟩
    · obtain ⟨rfl, ht⟩ := ht
      by_cases htr : t = r
      · exact .inl ⟨htr, rfl⟩
      · exact .inr ⟨htr, rfl, .inr (ht.resolve_left fun h => htr h.2)⟩
    · rcases List.mem_cons.1 hc with rfl | hc
      · exact ⟨p, hlabels l hl, hT₁.both_left (hT₁.at_start (hlt rfl))⟩
      · obtain ⟨t, ht, hTt⟩ := hstarts c hc l hl
        exact ⟨t, ht, hT₂.both_right hTt⟩

/-! ## The whole unit -/

/-- The chart of a whole unit: it begins on an empty stack and is never left. -/
abbrev Charted (z : Slots) (u : CodeUnit) (T : Nat → Option Layout) : Prop :=
  Charts z u 0 [] u.code.size (fun _ _ => False) T

/-- A unit begins on an empty stack. -/
lemma Charts.starts {z : Slots} {u : CodeUnit} {T : Nat → Option Layout} (h : Charted z u T) :
    T 0 = some [] := by
  rcases h.entry with ⟨-, h⟩ | ⟨-, h⟩
  · exact h
  · exact h.elim

/-- A unit that was made of a body has a chart, on which the stack is empty at all labels. -/
lemma Made.charted_labels {nested : Nested} {name : String} {b : Flow.Body} {z : Assembly}
    {u : CodeUnit} (h : Made nested name b z u) :
    ∃ T, Charted z.slots u T ∧ ∀ l t, z.LabelAt l t → T t = some [] := by
  have hruns : RunsGraph (Graph.ofBody b) 0 z.position z u := by
    obtain ⟨first, rest, hg⟩ := List.exists_cons_of_ne_nil (Graph.ofBody_ne_nil b)
    refine h.lays _ _ _ (hg ▸ Lays.runs_blocks first rest fun c hc => ?_)
    exact Graph.closed_ofBody b c (hg ▸ hc)
  obtain ⟨T, hT, hstarts⟩ := hruns
  -- wherever the blocks are left, another one begins
  have hexit : ∀ t Δ, Exits true z.position z t Δ → T t = some Δ := by
    rintro t _ ⟨rfl, ⟨⟨⟩, -⟩ | ⟨l, hl⟩⟩
    obtain ⟨c, hc, hlc⟩ := List.mem_flatMap.1 (h.binds.mem hl)
    obtain ⟨t', hl', hT'⟩ := hstarts c hc l hlc
    rwa [hl.unique hl']
  refine ⟨T, ?_, fun l t hl => hexit t [] ⟨rfl, .inr ⟨l, hl⟩⟩⟩
  rw [Charted, h.links.size]
  refine ⟨hT.le, ?_, hT.inside, fun t Δ ht => ?_⟩
  · rcases hT.entry with hentry | ⟨hp, hexits⟩
    · exact .inl hentry
    · have hlt := (hT.inside 0 [] (hexit _ _ hexits)).2
      exact absurd hp (Nat.ne_of_lt hlt)
  · obtain ⟨i, succs, hi, hrule, hnext, hsuccs⟩ := hT.rule t Δ ht
    exact ⟨i, succs, hi, hrule, hnext, fun r hr => .inl ((hsuccs r hr).elim id (hexit _ _))⟩

/-- **A unit that was made of a body has a chart.** -/
theorem Made.charted {nested : Nested} {name : String} {b : Flow.Body} {z : Assembly}
    {u : CodeUnit} (h : Made nested name b z u) : ∃ T, Charted z.slots u T := by
  obtain ⟨T, hT, -⟩ := h.charted_labels
  exact ⟨T, hT⟩

end CallByNeed
