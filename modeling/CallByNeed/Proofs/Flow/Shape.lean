import CallByNeed.Proofs.Flow.Lines

/-!
# The shape of a graph

A graph divides the statements of its body among its blocks. Each block takes a portion of them: it
begins at an index, and goes on up to the first transfer of control or the next label. Where no
transfer ends the portion, the graph adds one. Statements that follow a transfer, with no label in
between, belong to no block. A body is any list of lines, whatever statements and labels it was
built from and in whatever order. Main statement: `Graph.shape_ofBody`.
-/

namespace CallByNeed.Flow

/-! ## Indexes -/

namespace Body

/-- The labels bound at an index, in order: those with as many statements in front of them. -/
def labelsAt : Body → Nat → List Label
  | [], _ => []
  | .label l :: b, 0 => l :: labelsAt b 0
  | .label _ :: b, i + 1 => labelsAt b (i + 1)
  | .statement _ :: _, 0 => []
  | .statement _ :: b, i + 1 => labelsAt b i

/-- The indexes where labels are bound, in order, each with its labels. The last index that labels
can be bound at is the one behind all statements. -/
def bindings (b : Body) : List (Nat × List Label) :=
  ((List.range (b.statements.length + 1)).map fun i => (i, b.labelsAt i)).filter fun x => x.2 ≠ []

/-- The statement at an index follows a transfer of control, and no label is bound in between. -/
def CutOff (b : Body) (i : Nat) : Prop :=
  ∃ j, j < i ∧ b.statements[j]?.any Statement.isTransfer = true ∧
    ∀ k, k ≤ i → j < k → b.labelsAt k = []

instance (b : Body) (i : Nat) : Decidable (b.CutOff i) :=
  inferInstanceAs (Decidable (∃ j, j < i ∧ b.statements[j]?.any Statement.isTransfer = true ∧
    ∀ k, k ≤ i → j < k → b.labelsAt k = []))

variable (l : Label) (st : Statement Term) (b : Body) (i : Nat)

@[simp] lemma labelsAt_nil : labelsAt [] i = [] := rfl

@[simp] lemma labelsAt_label_zero : labelsAt (.label l :: b) 0 = l :: b.labelsAt 0 := rfl

@[simp] lemma labelsAt_label_succ :
    labelsAt (.label l :: b) (i + 1) = b.labelsAt (i + 1) := rfl

@[simp] lemma labelsAt_statement_zero : labelsAt (.statement st :: b) 0 = [] := rfl

@[simp] lemma labelsAt_statement_succ :
    labelsAt (.statement st :: b) (i + 1) = b.labelsAt i := rfl

/-- The bindings behind the first index. -/
def laterBindings : List (Nat × List Label) :=
  ((List.range b.statements.length).map fun i => (i + 1, b.labelsAt (i + 1))).filter
    fun x => x.2 ≠ []

lemma bindings_label :
    bindings (.label l :: b) = (0, l :: b.labelsAt 0) :: b.laterBindings := by
  simp [bindings, laterBindings, List.range_succ_eq_map, Function.comp_def]

lemma laterBindings_label : laterBindings (.label l :: b) = b.laterBindings := rfl

/-- A statement in front moves all labels to the next index. -/
lemma laterBindings_statement :
    laterBindings (.statement st :: b) = b.bindings.map fun x => (x.1 + 1, x.2) := by
  simp [bindings, laterBindings, List.filter_map, Function.comp_def]

lemma bindings_statement :
    bindings (.statement st :: b) = b.bindings.map fun x => (x.1 + 1, x.2) := by
  rw [← laterBindings_statement st]
  simp [bindings, laterBindings, List.range_succ_eq_map, Function.comp_def]

/-- The statement at an index is cut off, where, if `cut`, everything in front of the first label
is. -/
def CutFrom (cut : Bool) : Prop := (cut = true ∧ ∀ k ≤ i, b.labelsAt k = []) ∨ b.CutOff i

instance (cut : Bool) : Decidable (b.CutFrom i cut) :=
  inferInstanceAs (Decidable ((cut = true ∧ ∀ k ≤ i, b.labelsAt k = []) ∨ b.CutOff i))

variable {b i}

/-- A label in front makes no difference to what transfers of control cut off. -/
lemma cutOff_label : CutOff (.label l :: b) i ↔ b.CutOff i := by
  refine exists_congr fun j => and_congr_right fun _ => and_congr_right fun _ =>
    forall_congr' fun k => forall_congr' fun _ => forall_congr' fun hk => ?_
  obtain ⟨k, rfl⟩ := Nat.exists_eq_add_of_le' (Nat.one_le_of_lt hk)
  rw [labelsAt_label_succ]

lemma cutFrom_false : b.CutFrom i false ↔ b.CutOff i := by simp [CutFrom]

lemma cutFrom_label {cut : Bool} : CutFrom (.label l :: b) i cut ↔ b.CutOff i := by
  rw [CutFrom, cutOff_label]
  refine or_iff_right fun h => ?_
  simpa using h.2 0 (Nat.zero_le i)

lemma cutFrom_statement_zero {cut : Bool} : CutFrom (.statement st :: b) 0 cut ↔ cut = true := by
  simp [CutFrom, CutOff]

/-- Behind a transfer of control everything is cut off up to the next label. -/
lemma cutFrom_statement_succ {cut : Bool} :
    CutFrom (.statement st :: b) (i + 1) cut ↔ b.CutFrom i (cut || st.isTransfer) := by
  have hback : ∀ n, (∀ k, k ≤ i + 1 → n < k → labelsAt (.statement st :: b) k = []) ↔
      ∀ k, k ≤ i → n ≤ k → b.labelsAt k = [] := by
    refine fun n => ⟨fun h k hk hn => h (k + 1) (by omega) (by omega), fun h k hk hn => ?_⟩
    obtain ⟨k, rfl⟩ := Nat.exists_eq_add_of_le' (Nat.one_le_of_lt hn)
    exact h k (by omega) (by omega)
  constructor
  · rintro (⟨hcut, h⟩ | ⟨j, hj, htransfer, h⟩)
    · exact .inl ⟨by simp [hcut], fun k hk => h (k + 1) (by omega)⟩
    · cases j with
      | zero =>
        refine .inl ⟨?_, fun k hk => (hback 0).1 h k hk (Nat.zero_le k)⟩
        have hst : st.isTransfer = true := by simpa using htransfer
        simp [hst]
      | succ j =>
        exact .inr ⟨j, by omega, by simpa using htransfer,
          fun k hk hjk => (hback (j + 1)).1 h k hk hjk⟩
  · rintro (⟨hcut, h⟩ | ⟨j, hj, htransfer, h⟩)
    · rcases Bool.or_eq_true _ _ ▸ hcut with hcut | hst
      · refine .inl ⟨hcut, fun k hk => ?_⟩
        cases k with
        | zero => rfl
        | succ k => exact h k (by omega)
      · exact .inr ⟨0, by omega, by simpa using hst, (hback 0).2 fun k hk _ => h k hk⟩
    · exact .inr ⟨j + 1, by omega, by simpa using htransfer,
        (hback (j + 1)).2 fun k hk hjk => h k hk hjk⟩

end Body

/-! ## Portions -/

/-- A block with what it takes from a body: the index where it begins, and its own statements. -/
structure Portion where
  start : Nat
  own : List (Statement Term)
  block : Block

/-- The block has its own statements. If they do not end with a transfer, one that goes to the next
block is added, or one that returns `NULL` if there is none. -/
def Portion.Makes (p : Portion) (next? : Option Portion) : Prop :=
  p.block.statements = p.own ∨ (∀ s ∈ p.own, s.isTransfer = false) ∧
    ((∃ next l, next? = some next ∧ next.block.labels.head? = some l ∧
        p.block.statements = p.own ++ [.goto l]) ∨
      next? = none ∧ p.block.statements = p.own ++ [.ret .null])

namespace Body

/-- The statements from a line on that belong to the block which the line lies in. -/
def own : Body → List (Statement Term)
  | .statement s :: rest => if s.isTransfer then [s] else s :: own rest
  | _ => []

/-- The blocks that begin with labels, where the first statement has index `n`. If `joined`, labels
in front have been given to a block before. -/
def portionsFrom : Body → Nat → Bool → List Portion
  | [], _, _ => []
  | .statement _ :: rest, n, _ => portionsFrom rest (n + 1) false
  | .label _ :: rest, n, true => portionsFrom rest n true
  | .label l :: rest, n, false =>
    ⟨n, own (behindLabels rest), ⟨l :: labelsAt rest 0, cursor rest⟩⟩ :: portionsFrom rest n true

/-- The blocks of a body, the entry first. -/
def portions (b : Body) : List Portion := ⟨0, b.own, ⟨[], b.segment⟩⟩ :: b.portionsFrom 0 false

end Body

namespace Graph

/-- What comes behind the finished blocks when the lines ahead are taken. -/
def Building.ahead (g : Building) (rest : Body) (n : Nat) : Graph :=
  match g.current, g.atLabel with
  | none, _ => (rest.portionsFrom n false).map Portion.block
  | some o, false => ⟨o.labels.reverse, o.statements.reverse ++ rest.segment⟩ ::
      (rest.portionsFrom n false).map Portion.block
  | some o, true => ⟨o.labels.reverse ++ rest.labelsAt 0, o.statements.reverse ++ rest.cursor⟩ ::
      (rest.portionsFrom n true).map Portion.block

lemma Building.finish_foldl (rest : Body) (g : Building) (n : Nat) :
    (rest.foldl Building.line g).finish = g.blocks.reverse ++ g.ahead rest n := by
  induction rest generalizing g n with
  | nil =>
    obtain ⟨blocks, dropped, current, atLabel⟩ := g
    cases current with
    | none => simp [finish, ahead, Body.portionsFrom]
    | some o =>
      cases atLabel <;>
        simp [finish, ahead, Open.close, Body.portionsFrom, Body.segment, Body.cursor,
          Body.behindLabels]
  | cons line rest ih =>
    obtain ⟨blocks, dropped, current, atLabel⟩ := g
    rw [List.foldl_cons]
    cases line with
    | label l =>
      rw [ih _ n]
      cases current with
      | none => simp [Building.line, ahead, Body.portionsFrom]
      | some o =>
        cases atLabel <;> simp [Building.line, ahead, Body.portionsFrom, Open.close, Body.segment]
    | statement s =>
      rw [ih _ (n + 1)]
      have hcursor : Body.cursor (.statement s :: rest) = Body.segment (.statement s :: rest) := rfl
      cases current with
      | none => simp [Building.line, ahead, Body.portionsFrom]
      | some o =>
        cases hs : s.isTransfer <;> cases atLabel <;>
          simp [Building.line, ahead, Body.portionsFrom, Open.close, Body.segment, hcursor, hs]

/-- A graph has the blocks that its body is divided into. -/
theorem ofBody_eq (b : Body) : ofBody b = b.portions.map Portion.block := by
  show (b.foldl Building.line .start).finish = _
  rw [Building.finish_foldl b .start 0]
  simp [Building.start, Building.ahead, Body.portions]

end Graph

namespace Body

variable {b : Body}

lemma own_transfer {st : Statement Term} (hst : st.isTransfer = true) :
    own (.statement st :: b) = [st] := by
  rw [own, if_pos hst]

lemma own_plain {st : Statement Term} (hst : st.isTransfer = false) :
    own (.statement st :: b) = st :: own b := by
  rw [own, hst]
  rfl

/-- Labels that have been given to a block before are passed. -/
lemma portionsFrom_joined (b : Body) (n : Nat) :
    b.portionsFrom n true = b.behindLabels.portionsFrom n false := by
  induction b with
  | nil => rfl
  | cons line b ih =>
    cases line with
    | label l => exact ih
    | statement st => rfl

/-- A block ends with a transfer, and has no other. -/
lemma segment_transfers (b : Body) : ∃ first last, b.segment = first ++ [last] ∧
    last.isTransfer = true ∧ ∀ s ∈ first, s.isTransfer = false := by
  induction b with
  | nil => exact ⟨[], .ret .null, rfl, rfl, by simp⟩
  | cons line b ih =>
    cases line with
    | label l => exact ⟨[], .goto l, rfl, rfl, by simp⟩
    | statement st =>
      cases hst : st.isTransfer with
      | true => exact ⟨[], st, cursor_transfer hst b, hst, by simp⟩
      | false =>
        obtain ⟨first, last, hsegment, hlast, hfirst⟩ := ih
        refine ⟨st :: first, last, ?_, hlast, List.forall_mem_cons.2 ⟨hst, hfirst⟩⟩
        exact (cursor_statement hst b).trans (congrArg (st :: ·) hsegment)

/-- From a line on, a block is made of its own statements. -/
lemma makes_segment (b : Body) (n start : Nat) (labels : List Label) :
    Portion.Makes ⟨start, b.own, ⟨labels, b.segment⟩⟩ (b.portionsFrom n false).head? := by
  induction b generalizing n with
  | nil => exact .inr ⟨by simp [own], .inr ⟨rfl, rfl⟩⟩
  | cons line b ih =>
    cases line with
    | label l => exact .inr ⟨by simp [own], .inl ⟨_, l, rfl, rfl, rfl⟩⟩
    | statement st =>
      cases hst : st.isTransfer with
      | true =>
        rw [own_transfer hst]
        exact .inl (cursor_transfer hst b)
      | false =>
        have hsegment : segment (.statement st :: b) = st :: segment b := cursor_statement hst b
        rw [own_plain hst, hsegment]
        rcases ih (n + 1) with h | ⟨hown, ⟨next, l, hnext, hl, h⟩ | ⟨hnone, h⟩⟩
        · exact .inl (congrArg (st :: ·) h)
        · exact .inr ⟨List.forall_mem_cons.2 ⟨hst, hown⟩,
            .inl ⟨next, l, hnext, hl, congrArg (st :: ·) h⟩⟩
        · exact .inr ⟨List.forall_mem_cons.2 ⟨hst, hown⟩, .inr ⟨hnone, congrArg (st :: ·) h⟩⟩

/-- Each of these blocks is made of its own statements. -/
lemma makes_portionsFrom (b : Body) (n : Nat) (joined : Bool) {before after : List Portion}
    {p : Portion} (h : b.portionsFrom n joined = before ++ p :: after) : p.Makes after.head? := by
  induction b generalizing n joined before with
  | nil => simp [portionsFrom] at h
  | cons line b ih =>
    cases line with
    | statement st => exact ih (n + 1) false h
    | label l =>
      cases joined with
      | true => exact ih n true h
      | false =>
        rw [portionsFrom, List.cons_eq_append_iff] at h
        rcases h with ⟨rfl, h⟩ | ⟨before, rfl, h⟩
        · cases h
          rw [portionsFrom_joined]
          exact makes_segment _ n n _
        · exact ih n true h

/-- The transfers of these blocks. -/
lemma transfers_portionsFrom (b : Body) (n : Nat) (joined : Bool) :
    ∀ p ∈ b.portionsFrom n joined, ∃ first last, p.block.statements = first ++ [last] ∧
      last.isTransfer = true ∧ ∀ s ∈ first, s.isTransfer = false := by
  induction b generalizing n joined with
  | nil => simp [portionsFrom]
  | cons line b ih =>
    cases line with
    | statement st => exact ih (n + 1) false
    | label l =>
      cases joined with
      | true => exact ih n true
      | false => exact List.forall_mem_cons.2 ⟨segment_transfers (behindLabels b), ih n true⟩

/-! ## Reading the blocks -/

/-- The statements of a list that are selected, with their indexes from `n` on, where the first one
is looked at apart from the others. -/
lemma filter_zipIdx_cons (st : Statement Term) (ss : List (Statement Term)) (n : Nat)
    (keep : Nat → Bool) : ((st :: ss).zipIdx n).filter (fun x => keep (x.2 - n)) =
      (if keep 0 then [(st, n)] else []) ++
        (ss.zipIdx (n + 1)).filter fun x => keep (x.2 - (n + 1) + 1) := by
  have htail : (ss.zipIdx (n + 1)).filter (fun x => keep (x.2 - n)) =
      (ss.zipIdx (n + 1)).filter fun x => keep (x.2 - (n + 1) + 1) := by
    refine List.filter_congr fun x hx => ?_
    have hle := List.le_snd_of_mem_zipIdx hx
    rw [show x.2 - n = x.2 - (n + 1) + 1 by omega]
  rw [List.zipIdx_cons, List.filter_cons, Nat.sub_self, htail]
  split <;> rfl

/-- The statements that are not cut off, with their indexes from `n` on, where, if `cut`, everything
in front of the first label is. -/
def kept (b : Body) (n : Nat) (cut : Bool) : List (Statement Term × Nat) :=
  (b.statements.zipIdx n).filter fun x => ¬ b.CutFrom (x.2 - n) cut

lemma kept_label (l : Label) (b : Body) (n : Nat) (cut : Bool) :
    kept (.label l :: b) n cut = b.kept n false := by
  refine List.filter_congr fun x _ => ?_
  simp only [cutFrom_label, cutFrom_false]

lemma kept_statement (st : Statement Term) (b : Body) (n : Nat) (cut : Bool) :
    kept (.statement st :: b) n cut =
      (if cut then [] else [(st, n)]) ++ b.kept (n + 1) (cut || st.isTransfer) := by
  refine (filter_zipIdx_cons st b.statements n
    fun i => ¬ CutFrom (.statement st :: b) i cut).trans ?_
  cases cut <;> simp [cutFrom_statement_zero, cutFrom_statement_succ, kept]

/-- Blocks that begin with labels have what is kept behind a transfer; with the own statements of
the block that is open at the first line, they have what is kept where there is none. -/
lemma flatMap_portionsFrom (b : Body) (n : Nat) :
    ((b.portionsFrom n false).flatMap fun p => p.own.zipIdx p.start) = b.kept n true ∧
      b.own.zipIdx n ++ ((b.portionsFrom n false).flatMap fun p => p.own.zipIdx p.start) =
        b.kept n false ∧
      b.behindLabels.own.zipIdx n ++
          ((b.portionsFrom n true).flatMap fun p => p.own.zipIdx p.start) = b.kept n false := by
  induction b generalizing n with
  | nil => exact ⟨rfl, rfl, rfl⟩
  | cons line b ih =>
    cases line with
    | label l =>
      have hjoined := (ih n).2.2
      have hboth : ((portionsFrom (.label l :: b) n false).flatMap fun p => p.own.zipIdx p.start) =
          kept b n false := by
        rw [portionsFrom, List.flatMap_cons]
        exact hjoined
      refine ⟨?_, ?_, ?_⟩
      · rw [kept_label, hboth]
      · rw [kept_label, hboth]
        rfl
      · rw [kept_label]
        exact hjoined
    | statement st =>
      have hopen : (own (.statement st :: b)).zipIdx n ++ ((portionsFrom b (n + 1) false).flatMap
          fun p => p.own.zipIdx p.start) = kept (.statement st :: b) n false := by
        rw [kept_statement, Bool.false_or]
        cases hst : st.isTransfer with
        | true =>
          rw [own_transfer hst, ← (ih (n + 1)).1]
          rfl
        | false =>
          rw [own_plain hst, List.zipIdx_cons, List.cons_append, (ih (n + 1)).2.1]
          rfl
      refine ⟨?_, hopen, hopen⟩
      rw [kept_statement, Bool.true_or]
      exact (ih (n + 1)).1

/-! ## Labels of blocks -/

/-- The blocks that begin with labels have the labels that are bound at one index each. -/
lemma map_portionsFrom (b : Body) (n : Nat) :
    ((b.portionsFrom n false).map fun p => (p.start, p.block.labels)) =
        b.bindings.map (fun x => (x.1 + n, x.2)) ∧
      ((b.portionsFrom n true).map fun p => (p.start, p.block.labels)) =
        b.laterBindings.map fun x => (x.1 + n, x.2) := by
  induction b generalizing n with
  | nil => exact ⟨rfl, rfl⟩
  | cons line b ih =>
    cases line with
    | label l =>
      refine ⟨?_, (ih n).2⟩
      rw [portionsFrom, List.map_cons, (ih n).2, bindings_label, List.map_cons, Nat.zero_add]
    | statement st =>
      have hmoved : ((portionsFrom b (n + 1) false).map fun p => (p.start, p.block.labels)) =
          ((bindings b).map fun x => (x.1 + 1, x.2)).map fun x => (x.1 + n, x.2) := by
        rw [(ih (n + 1)).1, List.map_map]
        refine List.map_congr_left fun x _ => ?_
        rw [Function.comp_apply, Nat.add_assoc, Nat.add_comm 1 n]
      refine ⟨?_, ?_⟩
      · rw [bindings_statement]
        exact hmoved
      · rw [laterBindings_statement]
        exact hmoved

/-- The labels of a body are those of its blocks. -/
lemma flatMap_labels_portionsFrom (b : Body) (n : Nat) :
    ((b.portionsFrom n false).flatMap fun p => p.block.labels) = b.labels ∧
      b.labelsAt 0 ++ ((b.portionsFrom n true).flatMap fun p => p.block.labels) = b.labels := by
  induction b generalizing n with
  | nil => exact ⟨rfl, rfl⟩
  | cons line b ih =>
    cases line with
    | label l =>
      refine ⟨?_, congrArg (l :: ·) (ih n).2⟩
      rw [portionsFrom, List.flatMap_cons, labels_label, ← (ih n).2]
      rfl
    | statement st => exact ⟨(ih (n + 1)).1, (ih (n + 1)).1⟩

/-- The first of the own statements behind labels is the first statement. -/
lemma head?_own_behindLabels (b : Body) : b.behindLabels.own.head? = b.statements.head? := by
  induction b with
  | nil => rfl
  | cons line b ih =>
    cases line with
    | label l => exact ih
    | statement st =>
      cases hst : st.isTransfer with
      | true =>
        show (own (.statement st :: b)).head? = _
        rw [own_transfer hst]
        rfl
      | false =>
        show (own (.statement st :: b)).head? = _
        rw [own_plain hst]
        rfl

/-- Blocks that begin with labels begin with the statements at their indexes. -/
lemma head?_portionsFrom (b : Body) (n : Nat) (joined : Bool) :
    ∀ p ∈ b.portionsFrom n joined, n ≤ p.start ∧ p.own.head? = b.statements[p.start - n]? := by
  induction b generalizing n joined with
  | nil => simp [portionsFrom]
  | cons line b ih =>
    cases line with
    | statement st =>
      intro p hp
      obtain ⟨hle, hhead⟩ := ih (n + 1) false p hp
      refine ⟨by omega, ?_⟩
      rw [hhead, statements_statement, show p.start - n = p.start - (n + 1) + 1 by omega,
        List.getElem?_cons_succ]
    | label l =>
      cases joined with
      | true => exact ih n true
      | false =>
        refine List.forall_mem_cons.2 ⟨⟨Nat.le_refl n, ?_⟩, ih n true⟩
        rw [Nat.sub_self, statements_label, ← List.head?_eq_getElem?]
        exact head?_own_behindLabels b

end Body

/-! ## The shape of a graph -/

namespace Graph

/-- These are the blocks of a body, each with what it takes from the body. -/
structure Divides (b : Body) (ps : List Portion) : Prop where
  /-- The first block is the entry: it begins with the body and has no label. -/
  entry : ∃ p rest, ps = p :: rest ∧ p.start = 0 ∧ p.block.labels = []
  /-- Every block ends with a transfer of control, and has no other. -/
  transfers : ∀ p ∈ ps, ∃ first last, p.block.statements = first ++ [last] ∧
    last.isTransfer = true ∧ ∀ s ∈ first, s.isTransfer = false
  /-- A block has its own statements and, where these do not end with a transfer, one that is
  added. -/
  makes : ∀ before p after, ps = before ++ p :: after → p.Makes after.head?
  /-- What blocks have of their own are the statements of the body in order, each at its index,
  without exactly those that are cut off. -/
  reading : (ps.flatMap fun p => p.own.zipIdx p.start) =
    b.statements.zipIdx.filter fun x => ¬ b.CutOff x.2
  /-- Each place where a label stands in the body is in one block. -/
  labels : (ps.flatMap fun p => p.block.labels) = b.labels
  /-- The blocks behind the entry are those of the indexes where labels are bound, each with all
  labels that are bound there. -/
  bindings : (ps.tail.map fun p => (p.start, p.block.labels)) = b.bindings
  /-- Such a block begins with the statement at its index. -/
  heads : ∀ p ∈ ps.tail, p.own.head? = b.statements[p.start]?

/-- **The shape of a graph.** Its blocks divide the body: the entry comes first, every block ends
with its only transfer of control, the blocks have in order the statements that no transfer cuts
off, and labels bound at one index begin the block of the statement there. -/
theorem shape_ofBody (b : Body) :
    ∃ ps : List Portion, ofBody b = ps.map Portion.block ∧ Divides b ps := by
  refine ⟨b.portions, ofBody_eq b, ?_⟩
  constructor
  case entry => exact ⟨_, _, rfl, rfl, rfl⟩
  case transfers =>
    exact List.forall_mem_cons.2 ⟨b.segment_transfers, b.transfers_portionsFrom 0 false⟩
  case makes =>
    intro before p after h
    rw [Body.portions, List.cons_eq_append_iff] at h
    rcases h with ⟨rfl, h⟩ | ⟨before, rfl, h⟩
    · cases h
      exact b.makes_segment 0 0 []
    · exact b.makes_portionsFrom 0 false h
  case reading =>
    refine (b.flatMap_portionsFrom 0).2.1.trans (List.filter_congr fun x _ => ?_)
    simp only [Body.cutFrom_false, Nat.sub_zero]
  case labels => exact (b.flatMap_labels_portionsFrom 0).1
  case bindings =>
    refine (b.map_portionsFrom 0).1.trans ?_
    simp
  case heads => exact fun p hp => (b.head?_portionsFrom 0 false p hp).2

end Graph

end CallByNeed.Flow
