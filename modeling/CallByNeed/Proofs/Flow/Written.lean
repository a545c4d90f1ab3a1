import CallByNeed.Proofs.Flow.Renaming
import CallByNeed.Proofs.Flow.Tidy

/-!
# Graphs written as lines

The blocks of a graph, read in order, are the lines of its body with a jump added wherever a block
runs into a label (`Laced`), as long as control gets to every line. What holds of the lines of a
tidy body therefore holds of its graph as it is emitted (`Sequenced`).
-/

namespace CallByNeed.Flow

/-- The lines of a block. -/
def Block.written (b : Block) : Body := b.labels.map .label ++ b.statements.map .statement

/-- The lines of the blocks of a graph. -/
def Graph.written (g : Graph) : Body := g.flatMap Block.written

/-- The second lines are the first ones with jumps to labels in front of these. -/
inductive Laced : Body → Body → Prop
  | nil : Laced [] []
  | line {x : Line Term} {b c : Body} (h : Laced b c) : Laced (x :: b) (x :: c)
  | jump {l : Label} {b c : Body} (h : Laced b c) :
    Laced (.label l :: b) (.statement (.goto l) :: .label l :: c)

namespace Laced

variable {b b' c c' : Body} {K : List SlotKey}

lemma append (h : Laced b c) (h' : Laced b' c') : Laced (b ++ b') (c ++ c') := by
  induction h with
  | nil => exact h'
  | line _ ih => exact ih.line
  | jump _ ih => exact ih.jump

lemma labels (h : Laced b c) : c.labels = b.labels := by
  induction h with
  | nil => rfl
  | @line x _ _ _ ih => cases x <;> simp [ih]
  | jump _ ih => simp [ih]

lemma defined (h : Laced b c) (hb : Body.Defined K b) : Body.Defined K c := by
  induction h generalizing K with
  | nil => trivial
  | @line x _ _ _ ih =>
    cases x with
    | label l => exact ih hb
    | statement s => exact ⟨hb.1, ih hb.2⟩
  | jump _ ih => exact ⟨nofun, ih hb⟩

lemma targets (h : Laced b c) {l : Label} (hl : l ∈ c.targets) : l ∈ b.targets ∨ l ∈ b.labels := by
  induction h with
  | nil => exact .inl hl
  | @line x _ _ _ ih =>
    cases x with
    | label l => exact (ih hl).imp id (List.mem_cons_of_mem l)
    | statement s =>
      rw [Body.targets_statement, List.mem_append] at hl ⊢
      rcases hl with hl | hl
      · exact .inl (.inl hl)
      · exact (ih hl).imp .inr id
  | jump _ ih =>
    rw [Body.targets_statement, Body.targets_label, List.mem_append] at hl
    rcases hl with hl | hl
    · exact .inr (List.mem_cons.2 (.inl (List.mem_singleton.1 hl)))
    · exact (ih hl).imp id (List.mem_cons_of_mem _)

lemma operands (h : Laced b c) : c.operands = b.operands := by
  induction h with
  | nil => rfl
  | @line x _ _ _ ih => cases x <;> simp [ih]
  | jump _ ih => simpa [Statement.operand?] using ih

lemma meets (h : Laced b c) : c.meets = b.meets := by
  induction h with
  | nil => rfl
  | @line x _ _ _ ih => cases x <;> simp [ih]
  | jump _ ih => simpa [Statement.visits] using ih

end Laced

/-! ## The graph of a body, written -/

namespace Graph

/-- What has been taken, written as lines. -/
def Building.written (g : Building) : Body :=
  Graph.written g.blocks.reverse ++
    match g.current with
    | some o => o.labels.reverse.map .label ++ o.statements.reverse.map .statement
    | none => []

lemma written_append (g g' : Graph) : Graph.written (g ++ g') = g.written ++ g'.written :=
  List.flatMap_append

lemma written_singleton (b : Block) : Graph.written [b] = b.written := List.append_nil _

/-- A closed block, written. -/
lemma Open.written_close (o : Open) (s : Statement Term) : (o.close s).written =
    o.labels.reverse.map .label ++ o.statements.reverse.map .statement ++ [.statement s] := by
  simp [Block.written, Open.close]

/-- Taking a line that control gets to writes it down. -/
lemma Building.laced_line {g : Building} (hfresh : g.Fresh) {pre : Body} (h : Laced pre g.written)
    {line : Line Term} (hline : (g.line line).dropped = g.dropped) :
    Laced (pre ++ [line]) (g.line line).written := by
  have hone : ∀ x : Line Term, Laced [x] [x] := fun x => .line .nil
  unfold written at h ⊢
  cases hg : g.current with
  | none =>
    rw [hg] at h
    dsimp only at h
    rw [List.append_nil] at h
    cases line with
    | label l =>
      simp only [Building.line, hg]
      exact h.append (hone _)
    | statement s =>
      simp [Building.line, hg] at hline
  | some o =>
    rw [hg] at h
    dsimp only at h
    cases line with
    | label l =>
      by_cases hat : g.atLabel
      · have hnil := hfresh o hg hat
        simp only [Building.line, hg, hat, if_true, hnil] at h ⊢
        simpa using h.append (hone (.label l))
      · simp only [Building.line, hg, hat]
        have hjump := h.append (.jump (l := l) .nil)
        simpa [written_append, written_singleton, Open.written_close] using hjump
    | statement s =>
      by_cases hs : s.isTransfer
      · simp only [Building.line, hg, hs, if_true]
        have hall := h.append (hone (.statement s))
        simpa [written_append, written_singleton, Open.written_close] using hall
      · simp only [Building.line, hg, hs]
        have hall := h.append (hone (.statement s))
        simpa using hall

/-- Statements that were dropped stay dropped. -/
lemma Building.length_dropped_line (g : Building) (line : Line Term) :
    g.dropped.length ≤ (g.line line).dropped.length := by
  cases hg : g.current with
  | none => cases line <;> simp [Building.line, hg]
  | some o =>
    cases line with
    | label l =>
      simp only [Building.line, hg]
      split <;> exact Nat.le_refl _
    | statement s =>
      simp only [Building.line, hg]
      split <;> exact Nat.le_refl _

/-- Taking a line drops its statement or nothing. -/
lemma Building.dropped_line {g : Building} {line : Line Term}
    (h : (g.line line).dropped.length = g.dropped.length) : (g.line line).dropped = g.dropped := by
  cases hg : g.current with
  | none =>
    cases line with
    | label l => simp [Building.line, hg]
    | statement s => simp [Building.line, hg] at h
  | some o =>
    cases line with
    | label l =>
      simp only [Building.line, hg]
      split <;> rfl
    | statement s =>
      simp only [Building.line, hg]
      split <;> rfl

/-- Lines that control gets to are all written down. -/
lemma Building.laced_lines {lines : Body} {g : Building} (hfresh : g.Fresh) {pre : Body}
    (h : Laced pre g.written)
    (hlines : (lines.foldl Building.line g).dropped.length = g.dropped.length) :
    Laced (pre ++ lines) (lines.foldl Building.line g).written := by
  have hle : ∀ (lines : Body) (g : Building),
      g.dropped.length ≤ (lines.foldl Building.line g).dropped.length := by
    intro lines
    induction lines with
    | nil => exact fun g => Nat.le_refl _
    | cons line lines ih => exact fun g => Nat.le_trans (g.length_dropped_line line) (ih _)
  induction lines generalizing g pre with
  | nil => rwa [List.append_nil]
  | cons line lines ih =>
    rw [List.foldl_cons] at hlines ⊢
    have hfirst := g.length_dropped_line line
    have hrest := hle lines (g.line line)
    have hline : (g.line line).dropped = g.dropped := Building.dropped_line (by omega)
    rw [List.append_cons]
    exact ih (Building.fresh_line hfresh line) (Building.laced_line hfresh h hline) (by omega)

end Graph

/-- The graph of a body that control gets to everywhere, written, is the body laced with jumps, and
no statement is left out. -/
theorem Body.Live.laced {b : Body} (h : b.Live) {s : Statement Term} (hs : s.isTransfer = true) :
    Laced (b ++ [.statement s]) (Graph.ofBody (b ++ [.statement s])).written ∧
      Graph.unreachable (b ++ [.statement s]) = [] := by
  obtain ⟨hopen, hdropped⟩ := h .start rfl
  obtain ⟨o, ho⟩ := Option.isSome_iff_exists.1 hopen
  have hnone : (Graph.Building.ofBody (b ++ [.statement s])).current = none ∧
      (Graph.Building.ofBody (b ++ [.statement s])).dropped = [] := by
    unfold Graph.Building.ofBody
    rw [List.foldl_append, List.foldl_cons, List.foldl_nil]
    simp only [Graph.Building.line, ho, hs, if_true, hdropped, true_and]
    rfl
  have hfresh : Graph.Building.start.Fresh := fun o _ hat => by cases hat
  have hstart : Laced [] Graph.Building.start.written := .nil
  have hlaced : Laced ([] ++ (b ++ [.statement s]))
      (Graph.Building.ofBody (b ++ [.statement s])).written :=
    Graph.Building.laced_lines hfresh hstart (congrArg List.length hnone.2)
  refine ⟨?_, by unfold Graph.unreachable; rw [hnone.2]; rfl⟩
  have hwritten : (Graph.ofBody (b ++ [.statement s])).written
      = (Graph.Building.ofBody (b ++ [.statement s])).written := by
    unfold Graph.ofBody Graph.Building.finish Graph.Building.written
    rw [hnone.1]
    exact (List.append_nil _).symm
  rw [hwritten]
  exact hlaced

/-! ## Lines in order -/

/-- Lines that can be emitted one after the other: slots are assigned before they are read, labels
are placed once and in these lines, and what is nested in them is tidy. -/
structure Body.Sequenced (b : Body) : Prop where
  defined : b.Defined []
  labels : b.labels.Nodup
  targets : ∀ l ∈ b.targets, l ∈ b.labels
  paired : ∀ t ∈ b.operands, t.Paired
  tidy : ∀ v ∈ b.meets, v.Tidy

/-- The graph of a tidy body is in order, and nothing is left out. -/
theorem Body.Tidy.sequenced {b : Body} (h : b.Tidy) :
    Body.Sequenced (Graph.ofBody b).written ∧ Graph.unreachable b = [] := by
  obtain ⟨lines, aimed, thunks, literals, defaults⟩ := h
  rename_i lo hi t b
  obtain ⟨hlaced, hnone⟩ := lines.live.laced (s := .ret t) rfl
  change Laced (Flow.returning b t) (Graph.ofBody (Flow.returning b t)).written at hlaced
  have hbody : Flow.returning b t = b ++ [.statement (.ret t)] := rfl
  refine ⟨⟨?_, ?_, fun l hl => ?_, fun u hu => ?_, fun v hv => ?_⟩, hnone⟩
  · refine hlaced.defined (lines.defined.append ⟨fun k hk => ?_, trivial⟩)
    have hk : k ∈ t.reads := hk
    exact List.mem_append_left _ (lines.reads k (by rwa [Term.readsOf_singleton]))
  · rw [hlaced.labels, hbody]
    simpa using aimed.nodup
  · rw [hlaced.labels]
    have ht := aimed.targets l
    have hl := hlaced.targets hl
    simp only [hbody, Body.targets_append, Body.targets_statement, Body.targets_nil, Body.labels_append,
      Body.labels_statement, Body.labels_nil, Statement.successors, List.append_nil] at hl ⊢
    exact hl.elim ht id
  · rw [hlaced.operands] at hu
    exact lines.paired u (by simpa [hbody, Statement.operand?] using hu)
  · rw [hlaced.meets] at hv
    have hv : v ∈ b.meets ++ t.visits := by simpa [hbody, Statement.visits] using hv
    cases v with
    | thunk d => exact thunks d hv
    | closure node p => exact ⟨literals node p hv, defaults node p hv⟩
    | site c => trivial

end CallByNeed.Flow
