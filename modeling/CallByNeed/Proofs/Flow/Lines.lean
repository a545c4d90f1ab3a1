import CallByNeed.Proofs.Flow.Blocks

/-!
# A graph follows the lines of its body

A body is read line by line, its graph block by block. What is left to do at a line of the body is a
list of statements of the graph (`Body.cursor`): the statements up to the end of the block. A
statement that does not transfer control leads from its line to the next one
(`Scene.reaches_next`), and a jump to the lines behind the label, if no label is placed twice
(`Scene.advances_jump`).
-/

namespace CallByNeed.Flow

open Action

/-! ## Lines and blocks -/

namespace Body

/-- The labels placed in lines, in order. -/
def labels (b : Body) : List Label :=
  b.filterMap fun
    | .label l => some l
    | .statement _ => none

@[simp] lemma labels_nil : labels [] = [] := rfl

@[simp] lemma labels_label (l : Label) (b : Body) : labels (.label l :: b) = l :: labels b := rfl

@[simp] lemma labels_statement (s : Statement Term) (b : Body) :
    labels (.statement s :: b) = labels b := rfl

@[simp] lemma labels_append (b c : Body) : labels (b ++ c) = labels b ++ labels c :=
  List.filterMap_append

@[simp] lemma statements_nil : statements [] = [] := rfl

@[simp] lemma statements_label (l : Label) (b : Body) :
    statements (.label l :: b) = statements b := rfl

@[simp] lemma statements_statement (s : Statement Term) (b : Body) :
    statements (.statement s :: b) = s :: statements b := rfl

@[simp] lemma statements_append (b c : Body) :
    statements (b ++ c) = statements b ++ statements c := List.filterMap_append

/-- The lines behind the labels in front. -/
def behindLabels : Body → Body
  | .label _ :: rest => behindLabels rest
  | b => b

/-- The statements of the block that a line lies in, from there on. A label ends the block. -/
def segment : Body → List (Statement Term)
  | [] => [.ret .null]
  | .label l :: _ => [.goto l]
  | .statement s :: rest => if s.isTransfer then [s] else s :: segment rest

/-- What is left to do of a block at a line. The labels in front have been passed. -/
def cursor (b : Body) : List (Statement Term) := b.behindLabels.segment

@[simp] lemma cursor_label (l : Label) (b : Body) : cursor (.label l :: b) = cursor b := rfl

lemma cursor_statement {s : Statement Term} (hs : s.isTransfer = false) (b : Body) :
    cursor (.statement s :: b) = s :: segment b := by
  show (if s.isTransfer then [s] else s :: segment b) = _
  rw [hs]
  rfl

lemma cursor_transfer {s : Statement Term} (hs : s.isTransfer = true) (b : Body) :
    cursor (.statement s :: b) = [s] := by
  show (if s.isTransfer then [s] else s :: segment b) = _
  rw [if_pos hs]

end Body

namespace Graph

/-- Finished blocks stay as they are. -/
lemma Building.prefix_finish (rest : Body) (g : Building) :
    ∃ more, (rest.foldl Building.line g).finish = g.blocks.reverse ++ more := by
  induction rest generalizing g with
  | nil =>
    unfold List.foldl finish
    split
    · exact ⟨[_], List.reverse_cons⟩
    · exact ⟨[], (List.append_nil _).symm⟩
  | cons line rest ih =>
    obtain ⟨more, hmore⟩ := ih (g.line line)
    have hline : ∃ new, (g.line line).blocks = new ++ g.blocks := by
      cases line with
      | label l =>
        unfold Building.line
        dsimp only
        split
        · split
          · exact ⟨[], rfl⟩
          · exact ⟨[_], rfl⟩
        · exact ⟨[], rfl⟩
      | statement s =>
        unfold Building.line
        dsimp only
        split
        · split
          · exact ⟨[_], rfl⟩
          · exact ⟨[], rfl⟩
        · exact ⟨[], rfl⟩
    obtain ⟨new, hnew⟩ := hline
    refine ⟨new.reverse ++ more, ?_⟩
    rw [List.foldl_cons, hmore, hnew, List.reverse_append, List.append_assoc]

/-- Behind a label nothing has been added to the block yet. -/
def Building.Fresh (g : Building) : Prop :=
  ∀ o, g.current = some o → g.atLabel = true → o.statements = []

lemma Building.fresh_line {g : Building} (h : g.Fresh) (line : Line Term) :
    (g.line line).Fresh := by
  intro o ho hl
  cases hg : g.current with
  | none =>
    cases line with
    | label l =>
      simp only [Building.line, hg] at ho
      cases ho
      rfl
    | statement s =>
      simp only [Building.line, hg] at hl
      cases hl
  | some o' =>
    cases line with
    | label l =>
      simp only [Building.line, hg] at ho hl
      split at ho
      · rename_i hat
        cases ho
        exact h o' hg hat
      · cases ho
        rfl
    | statement s =>
      simp only [Building.line, hg] at ho hl
      split at ho
      · cases ho
      · rename_i hs
        simp [hs] at hl

/-- The open block gets the statements up to its end, and comes behind the finished ones. -/
lemma Building.finish_of_current (rest : Body) {g : Building} (h : g.Fresh) {o : Open}
    (ho : g.current = some o) :
    ∃ labels more, (rest.foldl Building.line g).finish = g.blocks.reverse ++
        ⟨labels, o.statements.reverse ++ if g.atLabel then rest.cursor else rest.segment⟩ :: more ∧
      ∀ l ∈ o.labels, l ∈ labels := by
  induction rest generalizing g o with
  | nil =>
    refine ⟨o.labels.reverse, [], ?_, fun l hl => List.mem_reverse.2 hl⟩
    have hcursor : Body.cursor [] = [.ret .null] := rfl
    simp [finish, ho, Open.close, Body.segment, hcursor]
  | cons line rest ih =>
    rw [List.foldl_cons]
    have hfresh := fresh_line h line
    cases line with
    | label l =>
      cases hat : g.atLabel with
      | true =>
        have hg : g.line (.label l) = { g with current := some { o with labels := l :: o.labels } } := by
          simp only [Building.line, ho, hat, if_true]
        rw [hg] at hfresh ⊢
        obtain ⟨labels, more, hfinish, hlabels⟩ := ih hfresh rfl
        refine ⟨labels, more, ?_, fun l' hl' => hlabels l' (List.mem_cons_of_mem l hl')⟩
        rw [hfinish, hat]
        rfl
      | false =>
        have hg : g.line (.label l) = ⟨o.close (.goto l) :: g.blocks, g.dropped, some ⟨[l], []⟩, true⟩ := by
          simp [Building.line, ho, hat]
        rw [hg] at hfresh ⊢
        obtain ⟨labels, more, hfinish, -⟩ := ih hfresh rfl
        refine ⟨o.labels.reverse, ⟨labels, Body.cursor rest⟩ :: more, ?_,
          fun l' hl' => List.mem_reverse.2 hl'⟩
        rw [hfinish]
        simp [Open.close, Body.segment]
    | statement s =>
      have htail : (if g.atLabel then Body.cursor (.statement s :: rest)
          else Body.segment (.statement s :: rest)) = Body.segment (.statement s :: rest) := by
        split <;> rfl
      rw [htail]
      cases hs : s.isTransfer with
      | true =>
        have hg : g.line (.statement s) = ⟨o.close s :: g.blocks, g.dropped, none, false⟩ := by
          simp [Building.line, ho, hs]
        rw [hg]
        obtain ⟨more, hfinish⟩ := prefix_finish rest
          ⟨o.close s :: g.blocks, g.dropped, none, false⟩
        refine ⟨o.labels.reverse, more, ?_, fun l' hl' => List.mem_reverse.2 hl'⟩
        rw [hfinish]
        simp [Open.close, Body.segment, hs]
      | false =>
        have hg : g.line (.statement s) = { g with
            current := some { o with statements := s :: o.statements }, atLabel := false } := by
          simp [Building.line, ho, hs]
        rw [hg] at hfresh ⊢
        obtain ⟨labels, more, hfinish, hlabels⟩ := ih hfresh rfl
        refine ⟨labels, more, ?_, hlabels⟩
        rw [hfinish]
        simp [Body.segment, hs]

/-- All labels of blocks come from the lines taken. -/
def Building.LabelsFrom (g : Building) (ls : List Label) : Prop :=
  (∀ b ∈ g.blocks, ∀ l ∈ b.labels, l ∈ ls) ∧ ∀ o, g.current = some o → ∀ l ∈ o.labels, l ∈ ls

lemma Building.labelsFrom_line {g : Building} {ls : List Label} (h : g.LabelsFrom ls)
    (line : Line Term) : (g.line line).LabelsFrom (ls ++ Body.labels [line]) := by
  obtain ⟨hblocks, hcurrent⟩ := h
  have hleft : ∀ b ∈ g.blocks, ∀ l ∈ b.labels, l ∈ ls ++ Body.labels [line] :=
    fun b hb l hl => List.mem_append_left _ (hblocks b hb l hl)
  have hclose : ∀ (o : Open) (last : Statement Term), g.current = some o →
      ∀ b ∈ o.close last :: g.blocks, ∀ l ∈ b.labels, l ∈ ls ++ Body.labels [line] := by
    intro o last ho b hb l hl
    rcases List.mem_cons.1 hb with rfl | hb
    · exact List.mem_append_left _ (hcurrent o ho l (List.mem_reverse.1 hl))
    · exact hleft b hb l hl
  cases hg : g.current with
  | none =>
    cases line with
    | label l =>
      simp only [Building.line, hg]
      refine ⟨hleft, fun o ho l' hl' => ?_⟩
      cases ho
      obtain rfl := List.mem_singleton.1 hl'
      simp
    | statement s =>
      simp only [Building.line, hg]
      exact ⟨hleft, fun o ho => by cases ho⟩
  | some o =>
    cases line with
    | label l =>
      simp only [Building.line, hg]
      split
      · refine ⟨hleft, fun o' ho l' hl' => ?_⟩
        cases ho
        rcases List.mem_cons.1 hl' with rfl | hl'
        · simp
        · exact List.mem_append_left _ (hcurrent o hg l' hl')
      · refine ⟨hclose o _ hg, fun o' ho l' hl' => ?_⟩
        cases ho
        obtain rfl := List.mem_singleton.1 hl'
        simp
    | statement s =>
      simp only [Building.line, hg]
      split
      · exact ⟨hclose o s hg, fun o ho => by cases ho⟩
      · refine ⟨hleft, fun o' ho l' hl' => ?_⟩
        cases ho
        exact List.mem_append_left _ (hcurrent o hg l' hl')

/-- What holds of the graph under construction when some lines have been taken. -/
lemma Building.taken (pre : Body) :
    (pre.foldl Building.line .start).Fresh ∧
      (pre.foldl Building.line .start).LabelsFrom pre.labels := by
  have hfold : ∀ (lines : Body) (g : Building) (ls : List Label), g.Fresh → g.LabelsFrom ls →
      (lines.foldl Building.line g).Fresh ∧
        (lines.foldl Building.line g).LabelsFrom (ls ++ lines.labels) := by
    intro lines
    induction lines with
    | nil => exact fun g ls h h' => ⟨h, by simpa using h'⟩
    | cons line lines ih =>
      intro g ls h h'
      have := ih (g.line line) (ls ++ Body.labels [line]) (fresh_line h line)
        (labelsFrom_line h' line)
      rwa [List.append_assoc, ← Body.labels_append] at this
  have hstart := hfold pre .start [] (by intro o ho hl; cases hl)
    ⟨by simp [Building.start], by simp [Building.start]⟩
  simpa using hstart

/-- The entry block has the statements from the first line on. -/
theorem entry_ofBody (b : Body) :
    ∃ block, (ofBody b)[0]? = some block ∧ block.statements = b.segment := by
  obtain ⟨labels, more, hfinish, -⟩ := Building.finish_of_current b (g := .start)
    (by intro o ho hl; cases hl) rfl
  refine ⟨⟨labels, b.segment⟩, ?_, rfl⟩
  show (b.foldl Building.line .start).finish[0]? = _
  rw [hfinish]
  simp [Building.start]

/-- The block of a label has the statements from the line behind the label on. -/
theorem block_of_label {b pre rest : Body} {l : Label} (h : b = pre ++ .label l :: rest)
    (hl : l ∉ pre.labels) :
    ∃ position block, (ofBody b).blockOf? l = some position ∧
      (ofBody b)[position]? = some block ∧ block.statements = rest.cursor := by
  obtain ⟨hfresh, hfrom⟩ := Building.taken pre
  have hofBody : ofBody b
      = (rest.foldl Building.line ((pre.foldl Building.line .start).line (.label l))).finish := by
    rw [h]
    show ((pre ++ .label l :: rest).foldl Building.line .start).finish = _
    rw [List.foldl_append, List.foldl_cons]
  revert hfresh hfrom hofBody
  generalize pre.foldl Building.line .start = g
  intro hfresh hfrom hofBody
  have hopen : ∃ o, (g.line (.label l)).current = some o ∧ l ∈ o.labels ∧ o.statements = [] ∧
      (g.line (.label l)).atLabel = true ∧
      ∀ b ∈ (g.line (.label l)).blocks, l ∉ b.labels := by
    have hblocks : ∀ b ∈ g.blocks, l ∉ b.labels := fun b hb hmem => hl (hfrom.1 b hb l hmem)
    cases hg : g.current with
    | none =>
      simp only [Building.line, hg]
      exact ⟨_, rfl, by simp, rfl, trivial, hblocks⟩
    | some o =>
      simp only [Building.line, hg]
      split
      · rename_i hat
        exact ⟨_, rfl, by simp, hfresh o hg hat, hat, hblocks⟩
      · refine ⟨_, rfl, by simp, rfl, rfl, fun b hb => ?_⟩
        rcases List.mem_cons.1 hb with rfl | hb
        · exact fun hmem => hl (hfrom.2 o hg l (List.mem_reverse.1 hmem))
        · exact hblocks b hb
  obtain ⟨o, ho, hlo, hempty, hat, hblocks⟩ := hopen
  obtain ⟨labels, more, hfinish, hlabels⟩ :=
    Building.finish_of_current rest (Building.fresh_line hfresh _) ho
  rw [hat, if_pos rfl, hempty, List.reverse_nil, List.nil_append] at hfinish
  refine ⟨(g.line (.label l)).blocks.length, ⟨labels, rest.cursor⟩, ?_, ?_, rfl⟩
  · rw [hofBody, hfinish, blockOf?, List.findIdx?_append, List.findIdx?_eq_none_iff.2]
    · simp [List.findIdx?_cons, hlabels l hlo]
    · intro b hb
      simpa using hblocks b (List.mem_reverse.1 hb)
  · rw [hofBody, hfinish, List.getElem?_append_right (by simp)]
    simp

end Graph

/-! ## Runs along the lines -/

namespace Scene

variable {X : Scene}

/-- Statements of a block, and then the blocks that they lead to, at most `bound` of them. -/
def along (X : Scene) (g : Graph) (bound : Nat) (at_ : List (Statement Term) × Frame) :
    Eval Value := fun s =>
  match X.statements at_.1 at_.2 s with
  | .error h s => .error h s
  | .ok (.next, _) s => .error (.error (.internal (.unassignedSlot 0))) s
  | .ok (.ret v, _) s => .ok v s
  | .ok (.jump l, F) s =>
    match g.blockOf? l with
    | none => .error (.error (.internal (.unassignedSlot 0))) s
    | some position =>
      match X.blocks g bound position F s with
      | .ok (v, _) s => .ok v s
      | .error h s => .error h s

/-- A graph begins at its entry. -/
lemma graph_succ {g : Graph} {b : Block} (hb : g[0]? = some b) (bound : Nat) (s : Store) :
    X.graph g (bound + 1) s = X.along g bound (b.statements, .empty) s := by
  unfold graph along
  rw [blocks_succ, hb]
  dsimp only
  cases X.statements b.statements .empty s with
  | error h s => rfl
  | ok r s =>
    obtain ⟨exit, F⟩ := r
    cases exit with
    | next => rfl
    | ret v => rfl
    | jump l =>
      dsimp only
      cases g.blockOf? l <;> rfl

/-- Going to a label begins the block that it is bound to. -/
lemma along_jump {g : Graph} {l : Label} {position : Nat} {b : Block}
    (hl : g.blockOf? l = some position) (hb : g[position]? = some b)
    {ss : List (Statement Term)} {F F' : Frame} {s s' : Store}
    (h : X.statements ss F s = .ok (.jump l, F') s') (bound : Nat) :
    X.along g (bound + 1) (ss, F) s = X.along g bound (b.statements, F') s' := by
  unfold along
  rw [h]
  dsimp only
  rw [hl]
  dsimp only
  rw [blocks_succ, hb]
  dsimp only
  cases X.statements b.statements F' s' with
  | error h s => rfl
  | ok r s =>
    obtain ⟨exit, F⟩ := r
    cases exit with
    | next => rfl
    | ret v => rfl
    | jump l =>
      dsimp only
      cases g.blockOf? l <;> rfl

/-- No block may be begun. -/
lemma along_zero {g : Graph} {l : Label} {position : Nat} (hl : g.blockOf? l = some position)
    {ss : List (Statement Term)} {F F' : Frame} {s s' : Store}
    (h : X.statements ss F s = .ok (.jump l, F') s') : Exhausts (X.along g 0 (ss, F) s) := by
  refine ⟨s', ?_⟩
  unfold along
  rw [h]
  dsimp only
  rw [hl]
  rfl

/-- The first of several statements. -/
lemma statements_cons_apply (st : Statement Term) (ss : List (Statement Term)) (F : Frame)
    (s : Store) :
    X.statements (st :: ss) F s = match X.statement st F s with
      | .error h s => .error h s
      | .ok (.next, F) s => X.statements ss F s
      | .ok (exit, F) s => .ok (exit, F) s := by
  rw [statements, bind_apply]
  cases X.statement st F s with
  | error h s => rfl
  | ok r s =>
    obtain ⟨exit, F⟩ := r
    cases exit <;> rfl

section

variable {b rest : Body} {F F' : Frame} {s s' : Store} {st : Statement Term} {l : Label}

/-- No label is placed before the place that the lines behind it are behind. -/
lemma not_mem_labels {before : Body} (hb : b.labels.Nodup) (h : before ++ .label l :: rest = b) :
    l ∉ before.labels := by
  rw [← h, Body.labels_append, Body.labels_label] at hb
  exact fun hmem => (List.nodup_append.1 hb).2.2 l hmem l List.mem_cons_self rfl

/-- A block that runs into labels goes on behind them. -/
lemma reaches_cursor (hb : b.labels.Nodup) (h : rest <:+ b) :
    Reaches (X.along (Graph.ofBody b)) (rest.segment, F) s (rest.cursor, F) s := by
  cases rest with
  | nil => exact .refl _ _ _
  | cons line rest =>
    cases line with
    | statement st => exact .refl _ _ _
    | label l =>
      obtain ⟨before, h⟩ := h
      obtain ⟨position, block, hposition, hblock, hstatements⟩ :=
        Graph.block_of_label h.symm (not_mem_labels hb h)
      have hjump : X.statements [.goto l] F s = .ok (.jump l, F) s := by
        rw [statements_cons_apply]
        rfl
      rw [Body.cursor_label, ← hstatements]
      exact .step (along_zero hposition hjump) fun n => along_jump hposition hblock hjump n

/-- A statement that does not transfer control leads to the next line. -/
theorem reaches_next (hb : b.labels.Nodup) (h : .statement st :: rest <:+ b)
    (hs : st.isTransfer = false) (hst : X.statement st F s = .ok (.next, F') s') :
    Reaches (X.along (Graph.ofBody b)) (Body.cursor (.statement st :: rest), F) s
      (rest.cursor, F') s' := by
  have hnext : Reaches (X.along (Graph.ofBody b)) (Body.cursor (.statement st :: rest), F) s
      (rest.segment, F') s' := by
    refine ⟨0, fun n => ?_, fun n hn => absurd hn (Nat.not_lt_zero n)⟩
    rw [Body.cursor_statement hs]
    show X.along _ n _ s = X.along _ n _ s'
    unfold along
    dsimp only
    rw [statements_cons_apply, hst]
  exact hnext.trans (reaches_cursor hb ((List.suffix_cons _ _).trans h))

/-- A jump leads to the lines behind the label. -/
theorem advances_jump (hb : b.labels.Nodup) (hs : st.isTransfer = true) {behind : Body}
    (hst : X.statement st F s = .ok (.jump l, F') s') (h : .label l :: behind <:+ b) :
    Advances (X.along (Graph.ofBody b)) (Body.cursor (.statement st :: rest), F) s
      (behind.cursor, F') s' := by
  obtain ⟨before, h⟩ := h
  obtain ⟨position, block, hposition, hblock, hstatements⟩ :=
    Graph.block_of_label h.symm (not_mem_labels hb h)
  have hjump : X.statements [st] F s = .ok (.jump l, F') s' := by
    rw [statements_cons_apply, hst]
  rw [Body.cursor_transfer hs, ← hstatements]
  exact .step (along_zero hposition hjump) fun n => along_jump hposition hblock hjump n

/-- A statement that stops the evaluation. -/
theorem ends_error {h : Halt} (hst : X.statement st F s = .error h s') :
    Ends (X.along (Graph.ofBody b)) (Body.cursor (.statement st :: rest), F) s (.error h s') := by
  have hcursor : ∃ ss, Body.cursor (.statement st :: rest) = st :: ss := by
    cases hs : st.isTransfer with
    | true => exact ⟨[], Body.cursor_transfer hs rest⟩
    | false => exact ⟨_, Body.cursor_statement hs rest⟩
  obtain ⟨ss, hss⟩ := hcursor
  refine ⟨0, fun n _ => ?_, fun n hn => absurd hn (Nat.not_lt_zero n)⟩
  rw [hss]
  unfold along
  dsimp only
  rw [statements_cons_apply, hst]
  exact .refl _

/-- A statement that returns. -/
theorem ends_ret {v : Value} (hs : st.isTransfer = true)
    (hst : X.statement st F s = .ok (.ret v, F') s') :
    Ends (X.along (Graph.ofBody b)) (Body.cursor (.statement st :: rest), F) s (.ok v s') := by
  refine ⟨0, fun n _ => ?_, fun n hn => absurd hn (Nat.not_lt_zero n)⟩
  rw [Body.cursor_transfer hs]
  unfold along
  dsimp only
  rw [statements_cons_apply, hst]
  exact .refl _

/-- What a run from the first line ends with, the graph ends with. -/
theorem graph_ends (hb : b.labels.Nodup) {r : Result Value}
    (h : Ends (X.along (Graph.ofBody b)) (b.cursor, .empty) s r) :
    ∃ k, (∀ n ≥ k, Agrees (X.graph (Graph.ofBody b) n s) r) ∧
      ∀ n < k, Exhausts (X.graph (Graph.ofBody b) n s) := by
  obtain ⟨block, hblock, hstatements⟩ := Graph.entry_ofBody b
  have hentry : Reaches (X.along (Graph.ofBody b)) (b.segment, .empty) s (b.cursor, .empty) s :=
    reaches_cursor hb List.suffix_rfl
  obtain ⟨k, hk, hlow⟩ := hentry.ends h
  refine ⟨k + 1, fun n hn => ?_, fun n hn => ?_⟩
  · obtain ⟨n, rfl⟩ := Nat.exists_eq_add_of_le' (show 1 ≤ n by omega)
    rw [graph_succ hblock, hstatements]
    exact hk n (by omega)
  · cases n with
    | zero => exact ⟨s, rfl⟩
    | succ n =>
      rw [graph_succ hblock, hstatements]
      exact hlow n (by omega)

end

end Scene

end CallByNeed.Flow
