import CallByNeed.Proofs.Flow.Lines

/-!
# Walks through bodies and graphs

A walk is what control does if it is decided from outside, one condition after the other, which of
them hold. It goes from statement to statement and keeps those it executes; a jump is only the way to
the next one, and a return is what the walk ends with. A body is walked by the indexes of its
statements, a graph by its blocks and the offsets in them.

Both are walked by the same rules (`Course`). If no label is placed twice, a body and its graph are
walked alike, whatever the conditions come to: `Graph.alike_ofBody`.
-/

namespace CallByNeed.Flow

/-! ## Walks -/

/-- How a walk ends. -/
inductive Ending where
  | returned (value : Term)
  /-- It cannot go to a label that is not bound. -/
  | stuck (l : Label)
  /-- There is neither a statement nor a rule for its absence. -/
  | outside

/-- What can be walked through: which statement is at a place, which place comes behind it, where
labels are bound, and how a walk ends where there is no statement. -/
structure Course (π : Type) where
  statement? : π → Option (Statement Term)
  next : π → π
  place? : Label → Option π
  past : Ending

/-- A walk on its way: the place it has come to, and how the conditions come out that it will meet. -/
structure Walker (π : Type) where
  place : π
  outcomes : Nat → Bool

namespace Course

variable {π ρ : Type}

/-- Goes to a label. -/
def enter (C : Course π) (l : Label) (outcomes : Nat → Bool) : Except Ending (Walker π) :=
  match C.place? l with
  | some p => .ok ⟨p, outcomes⟩
  | none => .error (.stuck l)

/-- One statement: what is kept of it, and where the walk goes on or how it ends. -/
def step (C : Course π) (w : Walker π) : List (Statement Term) × Except Ending (Walker π) :=
  match C.statement? w.place with
  | none => ([], .error C.past)
  | some (.goto l) => ([], C.enter l w.outcomes)
  | some (.branch condition yes no) =>
    ([.branch condition yes no],
      C.enter (if w.outcomes 0 then yes else no) fun i => w.outcomes (i + 1))
  | some (.ret value) => ([], .error (.returned value))
  | some s => ([s], .ok ⟨C.next w.place, w.outcomes⟩)

/-- At most `bound` statements: those that are kept, in order, and how the walk has ended, if it has. -/
def walk (C : Course π) : Nat → Walker π → List (Statement Term) × Option Ending
  | 0, _ => ([], none)
  | bound + 1, w =>
    match C.step w with
    | (ss, .error e) => (ss, some e)
    | (ss, .ok w) =>
      let (rest, ending) := C.walk bound w
      (ss ++ rest, ending)

/-- At some time the walk has executed these statements, and no others. -/
def Executes (C : Course π) (w : Walker π) (ss : List (Statement Term)) : Prop :=
  ∃ n, (C.walk n w).1 = ss

/-- The walk executes these statements and then ends so. -/
def Ends (C : Course π) (w : Walker π) (ss : List (Statement Term)) (e : Ending) : Prop :=
  ∃ n, C.walk n w = (ss, some e)

/-- The walk goes on for ever. -/
def GoesOn (C : Course π) (w : Walker π) : Prop := ∀ n, (C.walk n w).2 = none

/-- Two walks execute the same statements in the same order and end in the same way, or both go on
for ever. -/
structure Alike (C : Course π) (w : Walker π) (D : Course ρ) (v : Walker ρ) : Prop where
  executes : ∀ ss, C.Executes w ss ↔ D.Executes v ss
  ends : ∀ ss e, C.Ends w ss e ↔ D.Ends v ss e
  goesOn : C.GoesOn w ↔ D.GoesOn v

section

variable {C : Course π} {D : Course ρ} {w w' : Walker π} {v v' : Walker ρ}
  {ss : List (Statement Term)} {e : Ending}

lemma walk_of_ends (h : C.step w = (ss, .error e)) (n : Nat) : C.walk (n + 1) w = (ss, some e) := by
  rw [walk, h]

lemma walk_of_goes (h : C.step w = (ss, .ok w')) (n : Nat) :
    C.walk (n + 1) w = (ss ++ (C.walk n w').1, (C.walk n w').2) := by
  rw [walk, h]

/-- A step that keeps nothing does not show. -/
lemma walk_of_silent (h : C.step w = ([], .ok w')) (n : Nat) : C.walk (n + 1) w = C.walk n w' :=
  walk_of_goes h n

/-! ## Walks in step -/

/-- The second walk has come to the counterpart, or will when it has taken one more step, of which
nothing is kept. -/
def Trails (D : Course ρ) (R : Walker π → Walker ρ → Prop) (w : Walker π) (v : Walker ρ) : Prop :=
  R w v ∨ ∃ v', D.step v = ([], .ok v') ∧ R w v'

/-- Two walks at counterparts both end, or both go on with the same statement, and the second one
then comes to the counterpart of where the first one has come to. -/
def InStep (C : Course π) (D : Course ρ) (R : Walker π → Walker ρ → Prop) : Prop :=
  ∀ w v, R w v → (∃ ss e, C.step w = (ss, .error e) ∧ D.step v = (ss, .error e)) ∨
    ∃ ss w' v', C.step w = (ss, .ok w') ∧ D.step v = (ss, .ok v') ∧ Trails D R w' v'

variable {R : Walker π → Walker ρ → Prop}

/-- Whatever the first walk does, the second one does in time. -/
lemma InStep.follows (h : InStep C D R) (n : Nat) :
    ∀ w v, Trails D R w v → ∃ m, D.walk m v = C.walk n w := by
  induction n with
  | zero => exact fun w v _ => ⟨0, rfl⟩
  | succ n ih =>
    have hcounterpart : ∀ w v, R w v → ∃ m, D.walk m v = C.walk (n + 1) w := by
      intro w v hR
      rcases h w v hR with ⟨ss, e, hw, hv⟩ | ⟨ss, w', v', hw, hv, htrails⟩
      · exact ⟨1, by rw [walk_of_ends hv, walk_of_ends hw]⟩
      · obtain ⟨m, hm⟩ := ih w' v' htrails
        exact ⟨m + 1, by rw [walk_of_goes hv, walk_of_goes hw, hm]⟩
    rintro w v (hR | ⟨v', hv, hR⟩)
    · exact hcounterpart w v hR
    · obtain ⟨m, hm⟩ := hcounterpart w v' hR
      exact ⟨m + 1, by rw [walk_of_silent hv, hm]⟩

/-- The second walk does nothing else. -/
lemma InStep.leads (h : InStep C D R) (m : Nat) :
    ∀ w v, Trails D R w v → ∃ n, C.walk n w = D.walk m v := by
  induction m with
  | zero => exact fun w v _ => ⟨0, rfl⟩
  | succ m ih =>
    rintro w v (hR | ⟨v', hv, hR⟩)
    · rcases h w v hR with ⟨ss, e, hw, hv⟩ | ⟨ss, w', v', hw, hv, htrails⟩
      · exact ⟨1, by rw [walk_of_ends hv, walk_of_ends hw]⟩
      · obtain ⟨n, hn⟩ := ih w' v' htrails
        exact ⟨n + 1, by rw [walk_of_goes hv, walk_of_goes hw, hn]⟩
    · obtain ⟨n, hn⟩ := ih w v' (.inl hR)
      exact ⟨n, by rw [walk_of_silent hv, hn]⟩

/-- Walks that keep in step are alike. -/
theorem InStep.alike (h : InStep C D R) (hR : Trails D R w v) : Alike C w D v where
  executes ss := by
    refine ⟨?_, ?_⟩
    · rintro ⟨n, rfl⟩
      obtain ⟨m, hm⟩ := h.follows n w v hR
      exact ⟨m, by rw [hm]⟩
    · rintro ⟨m, rfl⟩
      obtain ⟨n, hn⟩ := h.leads m w v hR
      exact ⟨n, by rw [hn]⟩
  ends ss e := by
    refine ⟨?_, ?_⟩
    · rintro ⟨n, hn⟩
      obtain ⟨m, hm⟩ := h.follows n w v hR
      exact ⟨m, hm.trans hn⟩
    · rintro ⟨m, hm⟩
      obtain ⟨n, hn⟩ := h.leads m w v hR
      exact ⟨n, hn.trans hm⟩
  goesOn := by
    refine ⟨fun hall m => ?_, fun hall n => ?_⟩
    · obtain ⟨n, hn⟩ := h.leads m w v hR
      rw [← hn]
      exact hall n
    · obtain ⟨m, hm⟩ := h.follows n w v hR
      rw [← hm]
      exact hall m

end

end Course

/-! ## Bodies and graphs -/

namespace Body

/-- The index that a label is bound to: how many statements are in front of it. -/
def indexOf? : Body → Label → Option Nat
  | [], _ => none
  | .label l' :: rest, l => if l' = l then some 0 else indexOf? rest l
  | .statement _ :: rest, l => (indexOf? rest l).map (· + 1)

/-- A body is walked by the indexes of its statements. Behind the last one it returns `NULL`. -/
def course (b : Body) : Course Nat where
  statement? i := b.statements[i]?
  next i := i + 1
  place? := b.indexOf?
  past := .returned .null

lemma indexOf?_append {pre rest : Body} {l : Label} (hl : l ∉ pre.labels) :
    indexOf? (pre ++ .label l :: rest) l = some pre.statements.length := by
  induction pre with
  | nil => exact if_pos rfl
  | cons line pre ih =>
    cases line with
    | label l' =>
      rw [labels_label, List.mem_cons, not_or] at hl
      rw [List.cons_append, indexOf?, if_neg (Ne.symm hl.1), ih hl.2, statements_label]
    | statement s =>
      rw [List.cons_append, indexOf?, ih hl, statements_statement]
      rfl

lemma indexOf?_eq_none {b : Body} {l : Label} (hl : l ∉ b.labels) : b.indexOf? l = none := by
  induction b with
  | nil => rfl
  | cons line b ih =>
    cases line with
    | label l' =>
      rw [labels_label, List.mem_cons, not_or] at hl
      rw [indexOf?, if_neg (Ne.symm hl.1), ih hl.2]
    | statement s =>
      rw [indexOf?, ih hl]
      rfl

/-- A label that is placed divides the body. -/
lemma exists_of_mem_labels {b : Body} {l : Label} (hl : l ∈ b.labels) :
    ∃ pre rest : Body, pre ++ .label l :: rest = b := by
  obtain ⟨line, hline, hsome⟩ := List.mem_filterMap.1 hl
  cases line with
  | label l' =>
    obtain rfl := Option.some.inj hsome
    obtain ⟨pre, rest, h⟩ := List.append_of_mem hline
    exact ⟨pre, rest, h.symm⟩
  | statement s => cases hsome

lemma behindLabels_suffix (b : Body) : b.behindLabels <:+ b := by
  induction b with
  | nil => exact List.suffix_rfl
  | cons line b ih =>
    cases line with
    | label l => exact ih.trans (List.suffix_cons _ _)
    | statement s => exact List.suffix_rfl

lemma statements_behindLabels (b : Body) : b.behindLabels.statements = b.statements := by
  induction b with
  | nil => rfl
  | cons line b ih =>
    cases line with
    | label l => exact ih
    | statement s => rfl

/-- Behind labels there is a statement or the end. -/
lemma behindLabels_cases (b : Body) :
    b.behindLabels = [] ∨ ∃ s rest, b.behindLabels = .statement s :: rest := by
  induction b with
  | nil => exact .inl rfl
  | cons line b ih =>
    cases line with
    | label l => exact ih
    | statement s => exact .inr ⟨s, b, rfl⟩

end Body

namespace Graph

/-- A graph is walked by its blocks and the offsets of the statements in them. -/
def course (g : Graph) : Course (Nat × Nat) where
  statement? p := (g[p.1]?).bind fun b => b.statements[p.2]?
  next p := (p.1, p.2 + 1)
  place? l := (g.blockOf? l).map fun position => (position, 0)
  past := .outside

/-- No block has a label that is not placed. -/
lemma blockOf?_eq_none {b : Body} {l : Label} (hl : l ∉ b.labels) :
    (ofBody b).blockOf? l = none := by
  obtain ⟨-, hblocks, hcurrent⟩ := Building.taken b
  refine List.findIdx?_eq_none_iff.2 fun block hblock => ?_
  have hlabels : ∀ l' ∈ block.labels, l' ∈ b.labels := by
    unfold ofBody Building.ofBody Building.finish at hblock
    split at hblock
    · rename_i o ho
      rcases List.mem_cons.1 (List.mem_reverse.1 hblock) with rfl | hmem
      · exact fun l' hl' => hcurrent o ho l' (List.mem_reverse.1 hl')
      · exact hblocks block hmem
    · exact hblocks block (List.mem_reverse.1 hblock)
  simpa using fun hmem => hl (hlabels l hmem)

section

variable {b rest : Body} {w : Walker Nat} {v : Walker (Nat × Nat)} {outcomes : Nat → Bool}
  {l : Label} {s : Statement Term}

/-- The statements from a place of the graph to the end of its block. -/
def Remaining (g : Graph) (p : Nat × Nat) (ss : List (Statement Term)) : Prop :=
  ∃ block, g[p.1]? = some block ∧ block.statements.drop p.2 = ss

lemma Remaining.statement? {g : Graph} {p : Nat × Nat} {ss : List (Statement Term)}
    (h : g.Remaining p (s :: ss)) : g.course.statement? p = some s := by
  obtain ⟨block, hblock, hdrop⟩ := h
  show (g[p.1]?).bind (fun b => b.statements[p.2]?) = some s
  rw [hblock, Option.bind_some, ← List.head?_drop, hdrop, List.head?_cons]

lemma Remaining.next {g : Graph} {p : Nat × Nat} {ss : List (Statement Term)}
    (h : g.Remaining p (s :: ss)) : g.Remaining (g.course.next p) ss := by
  obtain ⟨block, hblock, hdrop⟩ := h
  refine ⟨block, hblock, ?_⟩
  show block.statements.drop (p.2 + 1) = ss
  rw [← List.tail_drop, hdrop, List.tail_cons]

/-- Where the body has come to, the graph has the statements of the block ahead. -/
structure Counterparts (b : Body) (w : Walker Nat) (v : Walker (Nat × Nat)) (rest : Body) : Prop where
  suffix : rest <:+ b
  index : b.statements.drop w.place = rest.statements
  remaining : (ofBody b).Remaining v.place rest.cursor
  outcomes : w.outcomes = v.outcomes

/-- The relation in which a body and its graph are walked. -/
abbrev Meets (b : Body) (w : Walker Nat) (v : Walker (Nat × Nat)) : Prop :=
  ∃ rest, Counterparts b w v rest

/-- Both go to a label that is placed, and are stuck at one that is not. -/
lemma enter_label (hb : b.labels.Nodup) (l : Label) (outcomes : Nat → Bool) :
    (∃ e, b.course.enter l outcomes = .error e ∧ (ofBody b).course.enter l outcomes = .error e) ∨
      ∃ w v, b.course.enter l outcomes = .ok w ∧ (ofBody b).course.enter l outcomes = .ok v ∧
        Meets b w v := by
  by_cases hl : l ∈ b.labels
  · obtain ⟨pre, rest, hsplit⟩ := Body.exists_of_mem_labels hl
    have hpre := Scene.not_mem_labels hb hsplit
    obtain ⟨position, block, hposition, hblock, hstatements⟩ := block_of_label hsplit.symm hpre
    have hindex : b.indexOf? l = some pre.statements.length := by
      rw [← hsplit]
      exact Body.indexOf?_append hpre
    refine .inr ⟨⟨pre.statements.length, outcomes⟩, ⟨(position, 0), outcomes⟩, ?_, ?_, .label l :: rest,
      ⟨⟨pre, hsplit⟩, ?_, ⟨block, hblock, hstatements⟩, rfl⟩⟩
    · simp only [Course.enter, Body.course, hindex]
    · simp only [Course.enter, course, hposition, Option.map_some]
    · rw [← hsplit, Body.statements_append, List.drop_left]
  · refine .inl ⟨.stuck l, ?_, ?_⟩
    · simp only [Course.enter, Body.course, Body.indexOf?_eq_none hl]
    · simp only [Course.enter, course, blockOf?_eq_none hl, Option.map_none]

/-- A block that runs into a label goes on at the block of that label. -/
lemma trails_of_segment (hb : b.labels.Nodup) (hsuffix : rest <:+ b)
    (hindex : b.statements.drop w.place = rest.statements)
    (hremaining : (ofBody b).Remaining v.place rest.segment) (houtcomes : w.outcomes = v.outcomes) :
    Course.Trails (ofBody b).course (Meets b) w v := by
  cases rest with
  | nil => exact .inl ⟨[], hsuffix, hindex, hremaining, houtcomes⟩
  | cons line rest =>
    cases line with
    | statement s => exact .inl ⟨_, hsuffix, hindex, hremaining, houtcomes⟩
    | label l =>
      obtain ⟨pre, hsplit⟩ := hsuffix
      obtain ⟨position, block, hposition, hblock, hstatements⟩ :=
        block_of_label hsplit.symm (Scene.not_mem_labels hb hsplit)
      refine .inr ⟨⟨(position, 0), v.outcomes⟩, ?_, .label l :: rest, ⟨pre, hsplit⟩, hindex,
        ⟨block, hblock, hstatements⟩, houtcomes⟩
      simp only [Course.step, hremaining.statement?]
      simp only [Course.enter, course, hposition, Option.map_some]

/-- A body and its graph are walked in step. -/
lemma inStep_ofBody (hb : b.labels.Nodup) :
    Course.InStep b.course (ofBody b).course (Meets b) := by
  rintro w v ⟨rest, hsuffix, hindex, hremaining, houtcomes⟩
  have hbehind := (Body.behindLabels_suffix rest).trans hsuffix
  rw [← Body.statements_behindLabels rest] at hindex
  unfold Body.cursor at hremaining
  rcases Body.behindLabels_cases rest with hrest | ⟨s, rest', hrest⟩
  · rw [hrest] at hindex hremaining
    -- the end of the body, where the graph has a return of its own
    have hbody : b.course.statement? w.place = none := by
      show b.statements[w.place]? = none
      rw [← List.head?_drop, hindex]
      rfl
    refine .inl ⟨[], .returned .null, ?_, ?_⟩
    · simp only [Course.step, hbody]
      rfl
    · simp only [Course.step, hremaining.statement?]
  · rw [hrest] at hindex hremaining hbehind
    have hbody : b.course.statement? w.place = some s := by
      show b.statements[w.place]? = some s
      rw [← List.head?_drop, hindex]
      rfl
    have hgraph : (ofBody b).course.statement? v.place = some s := by
      cases hs : s.isTransfer with
      | true =>
        rw [Body.segment, if_pos hs] at hremaining
        exact hremaining.statement?
      | false =>
        rw [Body.segment, hs] at hremaining
        exact hremaining.statement?
    -- a statement that does not transfer control leads to the next line of both
    have honwards : s.isTransfer = false →
        Course.Trails (ofBody b).course (Meets b) ⟨b.course.next w.place, w.outcomes⟩
          ⟨(ofBody b).course.next v.place, v.outcomes⟩ := by
      intro hs
      rw [Body.segment, hs] at hremaining
      refine trails_of_segment hb ((List.suffix_cons _ _).trans hbehind) ?_ hremaining.next houtcomes
      show b.statements.drop (w.place + 1) = _
      rw [← List.tail_drop, hindex]
      rfl
    have henter : ∀ (ss : List (Statement Term)) (l : Label) (o : Nat → Bool),
        (∃ ss' e, (ss, b.course.enter l o) = (ss', .error e) ∧
          (ss, (ofBody b).course.enter l o) = (ss', .error e)) ∨
        ∃ ss' w' v', (ss, b.course.enter l o) = (ss', .ok w') ∧
          (ss, (ofBody b).course.enter l o) = (ss', .ok v') ∧
          Course.Trails (ofBody b).course (Meets b) w' v' := by
      intro ss l o
      rcases enter_label hb l o with ⟨e, hw, hv⟩ | ⟨w', v', hw, hv, hmeets⟩
      · exact .inl ⟨ss, e, by rw [hw], by rw [hv]⟩
      · exact .inr ⟨ss, w', v', by rw [hw], by rw [hv], .inl hmeets⟩
    simp only [Course.step, hbody, hgraph, ← houtcomes]
    rw [← houtcomes] at honwards
    cases s with
    | assign target value => exact .inr ⟨_, _, _, rfl, rfl, honwards rfl⟩
    | eval value => exact .inr ⟨_, _, _, rfl, rfl, honwards rfl⟩
    | goto l => exact henter _ _ _
    | branch condition yes no => exact henter _ _ _
    | ret value => exact .inl ⟨_, _, rfl, rfl⟩

end

/-- **A body and its graph are walked alike**, if no label is placed twice: whatever the conditions
come to, both execute the same statements in the same order, and return the same operand, are stuck
at the same label that is not bound, or go on for ever. -/
theorem alike_ofBody {b : Body} (hb : b.labels.Nodup) (outcomes : Nat → Bool) :
    Course.Alike b.course ⟨0, outcomes⟩ (ofBody b).course ⟨(0, 0), outcomes⟩ := by
  obtain ⟨block, hblock, hstatements⟩ := entry_ofBody b
  exact (inStep_ofBody hb).alike
    (trails_of_segment hb List.suffix_rfl rfl ⟨block, hblock, hstatements⟩ rfl)

/-- A loop that begins with a label, leaves behind its last statement, and has statements that
control never reaches. -/
def loopingBody : Body :=
  [.label ⟨0⟩, .statement (.branch (.env ⟨"go"⟩) ⟨1⟩ ⟨2⟩), .label ⟨1⟩, .label ⟨3⟩,
    .statement (.eval (.env ⟨"work"⟩)), .statement (.goto ⟨0⟩), .statement (.eval .null), .label ⟨2⟩]

/-- It goes round once, and then returns `NULL`. -/
theorem alike_ofBody_loop :
    loopingBody.labels.Nodup ∧
      (ofBody loopingBody).course.Ends ⟨(0, 0), fun i => i == 0⟩
        [.branch (.env ⟨"go"⟩) ⟨1⟩ ⟨2⟩, .eval (.env ⟨"work"⟩), .branch (.env ⟨"go"⟩) ⟨1⟩ ⟨2⟩]
        (.returned .null) :=
  have hnodup : loopingBody.labels.Nodup := by decide
  ⟨hnodup, ((alike_ofBody hnodup fun i => i == 0).ends _ _).1 ⟨5, rfl⟩⟩

end Graph

end CallByNeed.Flow
