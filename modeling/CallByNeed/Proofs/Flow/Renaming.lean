import CallByNeed.Flow.Depth
import CallByNeed.Proofs.Flow.Drafted

/-!
# Other identities

A draft with identities of any source is the draft with identities counted from zero, with every
identity renamed (`Drafting.renames_term`); so is a draft that begins when other identities were
taken, which is a draft with those that are left (`IdSource.after`). So what is shown of drafts that
count holds of all drafts, up to renaming; and a source that does not repeat itself renames
injectively.
-/

namespace CallByNeed.Flow

/-- A source that never hands out an identity twice. -/
structure IdSource.Injective (ids : IdSource) : Prop where
  label : Function.Injective ids.label
  slot : Function.Injective ids.slot
  node : Function.Injective ids.node
  site : Function.Injective ids.site

lemma IdSource.injective_counting : IdSource.counting.Injective :=
  ⟨Function.injective_id, Function.injective_id, Function.injective_id, Function.injective_id⟩

/-! ## Renaming -/

section

variable (r : IdSource)

/-- The label with the identity that stands for its number. -/
def Label.rename (l : Label) : Label := ⟨r.label l.id⟩

/-- The nested body with the identity that stands for its number. -/
def NodeId.rename (n : NodeId) : NodeId := ⟨r.node n.id⟩

/-- The call site with the identity that stands for its number. -/
def CallSite.rename (c : CallSite) : CallSite := ⟨r.site c.id, c.call⟩

/-- The key of a slot with the identity that stands for its number. -/
def SlotKey.rename : SlotKey → SlotKey
  | .temp id => .temp (r.slot id)
  | .local id => .local (r.slot id)

/-- A target with the identity that stands for its number. -/
def Target.rename : Target → Target
  | .temp id => .temp (r.slot id)
  | .local id name => .local (r.slot id) name
  | .env name => .env name

namespace Term

mutual

/-- An operand with all identities renamed, those of nested bodies too. -/
def rename : Term → Term
  | .int n => .int n
  | .literal e => .literal e
  | .temp id => .temp (r.slot id)
  | .local id name => .local (r.slot id) name
  | .env name => .env name
  | .element vector index => .element vector.rename index.rename
  | .length t => .length t.rename
  | .increment t => .increment t.rename
  | .atLeast left right => .atLeast left.rename right.rename
  | .closure node ⟨name, formals, body⟩ =>
    .closure (node.rename r) ⟨name, renameFormals formals, renameLines body⟩
  | .thunk ⟨node, source, body⟩ => .thunk ⟨node.rename r, source, renameLines body⟩
  | .ellipsis => .ellipsis
  | .primitive s ⟨site, args, names⟩ => .primitive s ⟨site.rename r, renameAll args, names⟩
  | .call (.name s) ⟨site, args, names⟩ => .call (.name s) ⟨site.rename r, renameAll args, names⟩
  | .call (.computed t) ⟨site, args, names⟩ =>
    .call (.computed t.rename) ⟨site.rename r, renameAll args, names⟩

/-- Operands with all identities renamed. -/
def renameAll : List Term → List Term
  | [] => []
  | t :: ts => t.rename :: renameAll ts

/-- Formals with all identities renamed. -/
def renameFormals : List (Formal (Deferred Term)) → List (Formal (Deferred Term))
  | [] => []
  | ⟨name, none⟩ :: rest => ⟨name, none⟩ :: renameFormals rest
  | ⟨name, some ⟨node, source, body⟩⟩ :: rest =>
    ⟨name, some ⟨node.rename r, source, renameLines body⟩⟩ :: renameFormals rest

/-- Lines with all identities renamed. -/
def renameLines : List (Line Term) → List (Line Term)
  | [] => []
  | .label l :: rest => .label (l.rename r) :: renameLines rest
  | .statement (.assign target t) :: rest =>
    .statement (.assign (target.rename r) t.rename) :: renameLines rest
  | .statement (.eval t) :: rest => .statement (.eval t.rename) :: renameLines rest
  | .statement (.goto l) :: rest => .statement (.goto (l.rename r)) :: renameLines rest
  | .statement (.branch t yes no) :: rest =>
    .statement (.branch t.rename (yes.rename r) (no.rename r)) :: renameLines rest
  | .statement (.ret t) :: rest => .statement (.ret t.rename) :: renameLines rest

end

end Term

/-- A statement with all identities renamed. -/
def Statement.rename : Statement Term → Statement Term
  | .assign target t => .assign (target.rename r) (t.rename r)
  | .eval t => .eval (t.rename r)
  | .goto l => .goto (l.rename r)
  | .branch t yes no => .branch (t.rename r) (yes.rename r) (no.rename r)
  | .ret t => .ret (t.rename r)

/-- A line with all identities renamed. -/
def Line.rename : Line Term → Line Term
  | .label l => .label (l.rename r)
  | .statement s => .statement (s.rename r)

/-- A body with all identities renamed. -/
def Body.rename (b : Body) : Body := b.map (Line.rename r)

/-- A late argument with all identities renamed. -/
def Deferred.rename (d : Thunk) : Thunk := ⟨d.node.rename r, d.source, Body.rename r d.body⟩

/-- A formal with the identities of its default renamed. -/
def renameFormal (f : Formal Thunk) : Formal Thunk := ⟨f.name, f.default.map (Deferred.rename r)⟩

/-- A function literal with all identities renamed. -/
def Procedure.rename (p : Procedure Term) : Procedure Term :=
  ⟨p.name, p.formals.map (renameFormal r), Body.rename r p.body⟩

/-- Operands of a call with all identities renamed. -/
def Operands.rename (o : Operands Term) : Operands Term :=
  ⟨o.site.rename r, o.args.map (Term.rename r), o.names⟩

/-- A callee with all identities renamed. -/
def Callee.rename : Callee Term → Callee Term
  | .name s => .name s
  | .computed t => .computed (t.rename r)

/-- A draft with all identities in its lines renamed. -/
def Draft.rename (d : Draft) : Draft := ⟨d.taken, d.lines.map (Line.rename r)⟩

end

section

variable {r : IdSource}

lemma Term.renameAll_eq (ts : List Term) : renameAll r ts = ts.map (rename r) := by
  induction ts with
  | nil => rfl
  | cons t ts ih => simp [renameAll, ih]

lemma Term.renameLines_eq (b : Body) : renameLines r b = Body.rename r b := by
  induction b with
  | nil => rfl
  | cons line b ih =>
    unfold Body.rename at ih ⊢
    cases line with
    | label l => simp [renameLines, Line.rename, ih]
    | statement s => cases s <;> simp [renameLines, Line.rename, Statement.rename, ih]

lemma Term.renameFormals_eq (fs : List (Formal Thunk)) :
    renameFormals r fs = fs.map (renameFormal r) := by
  induction fs with
  | nil => rfl
  | cons f fs ih =>
    obtain ⟨name, _ | ⟨node, source, body⟩⟩ := f
    · simp [renameFormals, renameFormal, ih]
    · simp [renameFormals, renameFormal, Deferred.rename, renameLines_eq, ih]

/-! ### Operands, by their shape -/

@[simp] lemma Term.rename_thunk (d : Thunk) : (Term.thunk d).rename r = .thunk (d.rename r) := by
  simp only [rename, Deferred.rename, renameLines_eq]

@[simp] lemma Term.rename_closure (node : NodeId) (p : Procedure Term) :
    (Term.closure node p).rename r = .closure (node.rename r) (p.rename r) := by
  simp only [rename, Procedure.rename, renameLines_eq, renameFormals_eq]

@[simp] lemma Term.rename_primitive (s : Symbol) (o : Operands Term) :
    (Term.primitive s o).rename r = .primitive s (o.rename r) := by
  simp only [rename, Operands.rename, renameAll_eq]

@[simp] lemma Term.rename_call (f : Callee Term) (o : Operands Term) :
    (Term.call f o).rename r = .call (f.rename r) (o.rename r) := by
  cases f <;> simp only [rename, Callee.rename, Operands.rename, renameAll_eq]

@[simp] lemma Term.isTrivial_rename (t : Term) : (t.rename r).isTrivial = t.isTrivial := by
  cases t with
  | call f o => rw [rename_call]; rfl
  | primitive s o => rw [rename_primitive]; rfl
  | _ => rfl

@[simp] lemma Term.isEllipsis_rename (t : Term) : (t.rename r).isEllipsis = t.isEllipsis := by
  cases t with
  | call f o => rw [rename_call]; rfl
  | primitive s o => rw [rename_primitive]; rfl
  | _ => rfl

end

/-! ## Graphs and depths of renamed bodies -/

section

variable (r : IdSource)

/-- A block with all identities renamed. -/
def Block.rename (b : Block) : Block :=
  ⟨b.labels.map (Label.rename r), b.statements.map (Statement.rename r)⟩

/-- An open block with all identities renamed. -/
def Graph.Open.rename (o : Graph.Open) : Graph.Open :=
  ⟨o.labels.map (Label.rename r), o.statements.map (Statement.rename r)⟩

/-- A graph under construction with all identities renamed. -/
def Graph.Building.rename (g : Graph.Building) : Graph.Building :=
  ⟨g.blocks.map (Block.rename r), g.dropped.map (Statement.rename r),
    g.current.map (Graph.Open.rename r), g.atLabel⟩

end

section

variable {r : IdSource}

@[simp] lemma Statement.isTransfer_rename (s : Statement Term) :
    (s.rename r).isTransfer = s.isTransfer := by
  cases s <;> rfl

lemma Graph.Open.close_rename (o : Graph.Open) (s : Statement Term) :
    (o.rename r).close (s.rename r) = (o.close s).rename r := by
  simp [close, rename, Block.rename]

/-- Taking a renamed line. -/
lemma Graph.Building.line_rename (g : Graph.Building) (line : Line Term) :
    (g.rename r).line (line.rename r) = (g.line line).rename r := by
  cases hg : g.current with
  | none => cases line <;> simp [Building.line, rename, hg, Line.rename, Open.rename]
  | some o =>
    cases line with
    | label l =>
      by_cases hat : g.atLabel
      · simp [Building.line, rename, hg, hat, Line.rename, Open.rename]
      · have hgoto : Statement.goto (l.rename r) = (Statement.goto l).rename r := rfl
        simp [Building.line, rename, hg, hat, Line.rename, hgoto, Open.close_rename]
        simp [Open.rename]
    | statement s =>
      by_cases hs : s.isTransfer
      · simp [Building.line, rename, hg, hs, Line.rename, Open.close_rename]
      · simp [Building.line, rename, hg, hs, Line.rename, Open.rename]

lemma Graph.Building.ofBody_rename (b : Body) :
    Building.ofBody (Body.rename r b) = (Building.ofBody b).rename r := by
  have hlines : ∀ (b : Body) (g : Building),
      (Body.rename r b).foldl Building.line (g.rename r) = (b.foldl Building.line g).rename r := by
    intro b
    induction b with
    | nil => exact fun g => rfl
    | cons line b ih =>
      intro g
      unfold Body.rename at ih ⊢
      rw [List.map_cons, List.foldl_cons, List.foldl_cons, Building.line_rename, ih]
  exact hlines b .start

/-- The graph of a renamed body is the renamed graph. -/
theorem Graph.ofBody_rename (b : Body) :
    Graph.ofBody (Body.rename r b) = (Graph.ofBody b).map (Block.rename r) := by
  unfold Graph.ofBody
  rw [Building.ofBody_rename]
  unfold Building.finish Building.rename
  cases (Building.ofBody b).current with
  | none => simp
  | some o =>
    have hret : (o.rename r).close (.ret .null) = (o.close (.ret .null)).rename r :=
      Open.close_rename o (.ret .null)
    simp [hret]

lemma Graph.unreachable_rename (b : Body) :
    Graph.unreachable (Body.rename r b) = (Graph.unreachable b).map (Statement.rename r) := by
  unfold Graph.unreachable
  rw [Building.ofBody_rename]
  exact List.map_reverse.symm

namespace Term

mutual

lemma depth_rename : ∀ (t : Term) (acc : Nat), (t.rename r).depth acc = t.depth acc
  | .int _, _ | .literal _, _ | .temp _, _ | .local .., _ | .env _, _ | .ellipsis, _ => rfl
  | .element v i, acc => by
    simp only [rename, depth]
    rw [depth_rename v, depth_rename i]
  | .length t, acc | .increment t, acc => depth_rename t acc
  | .atLeast v i, acc => by
    simp only [rename, depth]
    rw [depth_rename v, depth_rename i]
  | .closure node ⟨_, formals, body⟩, acc => by
    simp only [rename, depth]
    rw [formalsDepth_rename formals, linesDepth_rename body]
  | .thunk ⟨_, _, body⟩, acc => by
    simp only [rename, depth]
    rw [linesDepth_rename body]
  | .primitive _ ⟨_, args, _⟩, acc => by
    simp only [rename, depth]
    exact depths_rename args acc
  | .call (.name _) ⟨_, args, _⟩, acc => by
    simp only [rename, depth]
    exact depths_rename args acc
  | .call (.computed t) ⟨_, args, _⟩, acc => by
    simp only [rename, depth]
    rw [depth_rename t]
    exact depths_rename args _

lemma depths_rename : ∀ (ts : List Term) (acc : Nat), depths acc (renameAll r ts) = depths acc ts
  | [], _ => rfl
  | t :: ts, acc => by
    simp only [renameAll, depths]
    rw [depth_rename t, depths_rename ts]

lemma formalsDepth_rename : ∀ (fs : List (Formal (Deferred Term))) (acc : Nat),
    formalsDepth acc (renameFormals r fs) = formalsDepth acc fs
  | [], _ => rfl
  | ⟨_, none⟩ :: rest, acc => by
    simp only [renameFormals, formalsDepth]
    exact formalsDepth_rename rest acc
  | ⟨_, some ⟨_, _, body⟩⟩ :: rest, acc => by
    simp only [renameFormals, formalsDepth]
    rw [linesDepth_rename body, formalsDepth_rename rest]

lemma linesDepth_rename : ∀ (b : List (Line Term)) (acc : Nat),
    linesDepth acc (renameLines r b) = linesDepth acc b
  | [], _ => rfl
  | .label _ :: rest, acc => by
    simp only [renameLines, linesDepth]
    exact linesDepth_rename rest acc
  | .statement (.assign _ t) :: rest, acc => by
    simp only [renameLines, linesDepth]
    rw [depth_rename t, linesDepth_rename rest]
  | .statement (.eval t) :: rest, acc => by
    simp only [renameLines, linesDepth]
    rw [depth_rename t, linesDepth_rename rest]
  | .statement (.goto _) :: rest, acc => by
    simp only [renameLines, linesDepth]
    exact linesDepth_rename rest acc
  | .statement (.branch t _ _) :: rest, acc => by
    simp only [renameLines, linesDepth]
    rw [depth_rename t, linesDepth_rename rest]
  | .statement (.ret t) :: rest, acc => by
    simp only [renameLines, linesDepth]
    rw [depth_rename t, linesDepth_rename rest]

end

end Term

/-- Renaming does not change how deeply bodies nest. -/
theorem Body.depth_rename (b : Body) : Body.depth (Body.rename r b) = b.depth := by
  unfold Body.depth
  rw [← Term.renameLines_eq, Term.linesDepth_rename]

lemma Procedure.depth_rename (p : Procedure Term) : (p.rename r).depth = p.depth := by
  unfold Procedure.depth Procedure.rename
  rw [← Term.renameLines_eq, ← Term.renameFormals_eq, Term.linesDepth_rename,
    Term.formalsDepth_rename]

end

/-! ## Drafting with other identities -/

/-- The identities that are left of a source when others were taken. -/
def IdSource.after (r : IdSource) (k : Taken) : IdSource :=
  ⟨fun n => r.label (n + k.labels), fun n => r.slot (n + k.slots), fun n => r.node (n + k.nodes),
    fun n => r.site (n + k.sites)⟩

/-- The same draft when others were taken before. -/
def Draft.past (d : Draft) (k : Taken) : Draft :=
  { d with taken := ⟨d.taken.labels + k.labels, d.taken.slots + k.slots, d.taken.nodes + k.nodes,
      d.taken.sites + k.sites⟩ }

/-- Two pieces of drafting that do the same, where the second one has the identities of the source
instead of numbers, and the first one begins when others were taken. -/
def Renames {α : Type} (r : IdSource) (k : Taken) (ρ : α → α) (c c' : Drafting α) : Prop :=
  ∀ d : Draft, (∃ x, ∃ d₁ : Draft,
      c (d.past k) = .ok (x, d₁.past k) ∧ c' (d.rename r) = .ok (ρ x, d₁.rename r)) ∨
    c (d.past k) = .error .misplacedEllipsis ∧ c' (d.rename r) = .error .misplacedEllipsis

namespace Renames

variable {α β : Type} {r : IdSource} {k : Taken} {ρ : α → α} {σ : β → β}

protected lemma pure {x y : α} (h : ρ x = y) :
    Renames r k ρ (Pure.pure x : Drafting α) (Pure.pure y) := by
  subst h
  exact fun d => .inl ⟨x, d, rfl, rfl⟩

/-- `...` where it cannot stand. -/
protected lemma throw :
    Renames r k ρ (throw .misplacedEllipsis : Drafting α) (throw .misplacedEllipsis) :=
  fun _ => .inr ⟨rfl, rfl⟩

protected lemma bind {c c' : Drafting α} {f f' : α → Drafting β} (h : Renames r k ρ c c')
    (h' : ∀ x, Renames r k σ (f x) (f' (ρ x))) : Renames r k σ (c >>= f) (c' >>= f') := by
  intro d
  rw [Drafts.bind_apply, Drafts.bind_apply]
  rcases h d with ⟨x, d₁, hc, hc'⟩ | ⟨hc, hc'⟩
  · rw [hc, hc']
    exact h' x d₁
  · rw [hc, hc']
    exact .inr ⟨rfl, rfl⟩

/-! ### Steps -/

lemma label : Renames r k (Label.rename r) (Drafting.label .counting)
    (Drafting.label (r.after k)) := fun d =>
  .inl ⟨⟨d.taken.labels + k.labels⟩,
    { d with taken := { d.taken with labels := d.taken.labels + 1 } },
    by rw [Draft.past, Draft.past, Nat.add_right_comm _ 1]; rfl, rfl⟩

lemma slot : Renames r k r.slot (Drafting.slot .counting) (Drafting.slot (r.after k)) := fun d =>
  .inl ⟨d.taken.slots + k.slots, { d with taken := { d.taken with slots := d.taken.slots + 1 } },
    by rw [Draft.past, Draft.past, Nat.add_right_comm _ 1]; rfl, rfl⟩

lemma node : Renames r k (NodeId.rename r) (Drafting.node .counting)
    (Drafting.node (r.after k)) := fun d =>
  .inl ⟨⟨d.taken.nodes + k.nodes⟩, { d with taken := { d.taken with nodes := d.taken.nodes + 1 } },
    by rw [Draft.past, Draft.past, Nat.add_right_comm _ 1]; rfl, rfl⟩

lemma site (call : Call) : Renames r k (CallSite.rename r) (Drafting.site .counting call)
    (Drafting.site (r.after k) call) := fun d =>
  .inl ⟨⟨d.taken.sites + k.sites, call⟩,
    { d with taken := { d.taken with sites := d.taken.sites + 1 } },
    by rw [Draft.past, Draft.past, Nat.add_right_comm _ 1]; rfl, rfl⟩

lemma line {l l' : Line Term} (h : l.rename r = l') :
    Renames r k id (Drafting.line l) (Drafting.line l') := by
  subst h
  intro d
  refine .inl ⟨(), { d with lines := d.lines.push l }, rfl, ?_⟩
  unfold Draft.rename
  rw [Array.map_push]
  rfl

/-- A nested body is set apart. -/
lemma nested {value value' : Drafting Term} (h : Renames r k (Term.rename r) value value') :
    Renames r k (Body.rename r) (Drafting.nested value) (Drafting.nested value') := by
  have hrun : ∀ (value : Drafting Term) d, Drafting.nested value d =
      match value { d with lines := #[] } with
      | .ok (t, d₁) => .ok ((d₁.lines.push (.statement (.ret t))).toList, { d₁ with lines := d.lines })
      | .error e => .error e := by
    intro value d
    show Except.bind (value { d with lines := #[] }) _ = _
    unfold Except.bind
    cases value { d with lines := #[] } <;> rfl
  intro d
  rw [hrun, hrun]
  have hempty : ({ d.rename r with lines := #[] } : Draft) = { d with lines := #[] }.rename r := by
    unfold Draft.rename
    rw [Array.map_empty]
  have hpast : ({ d.past k with lines := #[] } : Draft) = { d with lines := #[] }.past k := rfl
  rw [hempty, hpast]
  rcases h { d with lines := #[] } with ⟨t, d₁, hc, hc'⟩ | ⟨hc, hc'⟩
  · rw [hc, hc']
    refine .inl ⟨(d₁.lines.push (.statement (.ret t))).toList, { d₁ with lines := d.lines },
      rfl, ?_⟩
    simp [Body.rename, Draft.rename, Line.rename, Statement.rename]
  · rw [hc, hc']
    exact .inr ⟨rfl, rfl⟩

end Renames

namespace Drafting

variable {o : CompilerOptions} {r : IdSource} {k : Taken}

lemma renames_evalUnlessTrivial (t : Term) :
    Renames r k id (evalUnlessTrivial t) (evalUnlessTrivial (t.rename r)) := by
  unfold evalUnlessTrivial
  rw [Term.isTrivial_rename]
  split
  · exact .pure rfl
  · exact .line rfl

lemma renames_settle (t : Term) :
    Renames r k (Term.rename r) (settle .counting t) (settle (r.after k) (t.rename r)) := by
  unfold settle
  rw [Term.isTrivial_rename]
  split
  · exact .pure rfl
  · exact .bind .slot fun i => .bind (.line rfl) fun _ => .pure rfl

/-! ### The shapes -/

lemma renames_conditional {c c' y y' n n' : Drafting Term} (hc : Renames r k (Term.rename r) c c')
    (hy : Renames r k (Term.rename r) y y') (hn : Renames r k (Term.rename r) n n') :
    Renames r k (Term.rename r) (conditional .counting c y n)
      (conditional (r.after k) c' y' n') := by
  refine hc.bind fun tc => .bind .slot fun i => .bind .label fun ly => .bind .label fun ln =>
    .bind .label fun ld => .bind (.line rfl) fun _ => .bind (.line rfl) fun _ => ?_
  refine hy.bind fun ty => .bind (.line rfl) fun _ => .bind (.line rfl) fun _ =>
    .bind (.line rfl) fun _ => ?_
  exact hn.bind fun tn => .bind (.line rfl) fun _ => .bind (.line rfl) fun _ =>
    .bind (.line rfl) fun _ => .pure rfl

lemma renames_loop (name : Symbol) {q q' e e' : Drafting Term}
    (hq : Renames r k (Term.rename r) q q') (he : Renames r k (Term.rename r) e e') :
    Renames r k (Term.rename r) (loop .counting name q e) (loop (r.after k) name q' e') := by
  refine .bind .slot fun s => hq.bind fun tq => .bind (.line rfl) fun _ => .bind .slot fun n =>
    .bind .slot fun i => .bind (.line rfl) fun _ => .bind (.line rfl) fun _ => ?_
  refine .bind .label fun lh => .bind .label fun li => .bind .label fun le =>
    .bind (.line rfl) fun _ => .bind (.line rfl) fun _ => .bind (.line rfl) fun _ =>
    .bind (.line rfl) fun _ => ?_
  exact he.bind fun te => .bind (renames_evalUnlessTrivial te) fun _ => .bind (.line rfl) fun _ =>
    .bind (.line rfl) fun _ => .bind (.line rfl) fun _ => .pure rfl

lemma renames_assignment (name : Symbol) {v v' : Drafting Term}
    (hv : Renames r k (Term.rename r) v v') :
    Renames r k (Term.rename r) (assignment .counting name v) (assignment (r.after k) name v') :=
  hv.bind fun _ => .bind .slot fun _ => .bind (.line rfl) fun _ => .bind (.line rfl) fun _ =>
    .pure rfl

lemma renames_dynamicCall (call : Call) {c c' : Drafting (Callee Term)}
    {args args' : Drafting (List Term)} (hc : Renames r k (Callee.rename r) c c')
    (hargs : Renames r k (List.map (Term.rename r)) args args') :
    Renames r k (Term.rename r) (dynamicCall .counting call c args)
      (dynamicCall (r.after k) call c' args') :=
  hc.bind fun f => hargs.bind fun ts => .bind (.site call) fun c => .pure (by
    rw [Term.rename_call]
    rfl)

lemma renames_primitiveCall (name : Symbol) (call : Call) {args args' : Drafting (List Term)}
    (hargs : Renames r k (List.map (Term.rename r)) args args') :
    Renames r k (Term.rename r) (primitiveCall .counting name call args)
      (primitiveCall (r.after k) name call args') :=
  hargs.bind fun ts => .bind (.site call) fun c => .pure (by
    rw [Term.rename_primitive]
    rfl)

/-! ### Arguments and steps -/

section

variable {args : List (Arg Expr)}

lemma renames_steps (h : ∀ a ∈ args, Renames r k (Term.rename r) (term o .counting a.value)
    (term o (r.after k) a.value)) :
    Renames r k (Term.rename r) (steps o .counting args) (steps o (r.after k) args) := by
  induction args with
  | nil => exact .pure rfl
  | cons a rest ih =>
    have ha := h a List.mem_cons_self
    have hrest := ih fun x hx => h x (List.mem_cons_of_mem a hx)
    cases rest with
    | nil => exact ha
    | cons a' rest => exact ha.bind fun t => .bind (renames_evalUnlessTrivial t) fun _ => hrest

lemma renames_eagerArgs (h : ∀ a ∈ args, Renames r k (Term.rename r) (term o .counting a.value)
    (term o (r.after k) a.value)) :
    Renames r k (List.map (Term.rename r)) (eagerArgs o .counting args)
      (eagerArgs o (r.after k) args) := by
  induction args with
  | nil => exact .pure rfl
  | cons a rest ih =>
    have hrest := ih fun x hx => h x (List.mem_cons_of_mem a hx)
    unfold eagerArgs
    cases a.value.isEllipsis with
    | true =>
      exact .bind (ρ := Term.rename r) (.pure rfl) fun t => hrest.bind fun ts => .pure rfl
    | false =>
      exact (h a List.mem_cons_self).bind fun t => (renames_settle t).bind fun t' =>
        hrest.bind fun ts => .pure rfl

lemma renames_lateArgs (h : ∀ a ∈ args, Renames r k (Term.rename r) (term o .counting a.value)
    (term o (r.after k) a.value)) :
    Renames r k (List.map (Term.rename r)) (lateArgs o .counting args)
      (lateArgs o (r.after k) args) := by
  induction args with
  | nil => exact .pure rfl
  | cons a rest ih =>
    have hrest := ih fun x hx => h x (List.mem_cons_of_mem a hx)
    unfold lateArgs
    cases a.value.isEllipsis with
    | true =>
      exact .bind (ρ := Term.rename r) (.pure rfl) fun t => hrest.bind fun ts => .pure rfl
    | false =>
      cases a.value.isConstant with
      | true =>
        exact .bind (ρ := Term.rename r) (.pure rfl) fun t => hrest.bind fun ts => .pure rfl
      | false =>
        refine (h a List.mem_cons_self).nested.bind fun body => .bind .node fun n => ?_
        exact .bind (ρ := Term.rename r) (.pure (Term.rename_thunk _)) fun t =>
          hrest.bind fun ts => .pure rfl

end

lemma renames_defaults {formals : List (Formal Expr)}
    (h : ∀ f ∈ formals, ∀ e, f.default = some e →
      Renames r k (Term.rename r) (term o .counting e) (term o (r.after k) e)) :
    Renames r k (List.map (renameFormal r)) (defaults o .counting formals)
      (defaults o (r.after k) formals) := by
  induction formals with
  | nil => exact .pure rfl
  | cons f rest ih =>
    have hrest := ih fun x hx => h x (List.mem_cons_of_mem f hx)
    obtain ⟨name, default⟩ := f
    cases default with
    | none => exact hrest.bind fun fs => .pure rfl
    | some e =>
      exact (h _ List.mem_cons_self e rfl).nested.bind fun body => .bind .node fun n =>
        hrest.bind fun fs => .pure rfl

/-! ### Expressions -/

lemma renames_plainCall {callee : Expr} {args : List (Arg Expr)}
    (hcallee : Renames r k (Term.rename r) (term o .counting callee) (term o (r.after k) callee))
    (hargs : ∀ a ∈ args, Renames r k (Term.rename r) (term o .counting a.value)
      (term o (r.after k) a.value)) :
    Renames r k (Term.rename r) (plainCall o .counting callee args)
      (plainCall o (r.after k) callee args) := by
  unfold plainCall
  split
  · split
    · exact renames_primitiveCall _ _ (renames_eagerArgs hargs)
    · split
      · exact .throw
      · exact renames_dynamicCall _ (.pure rfl) (renames_lateArgs hargs)
  · exact renames_dynamicCall _ (hcallee.bind fun t => .pure rfl) (renames_lateArgs hargs)

lemma renames_call {callee : Expr} {args : List (Arg Expr)}
    (hcallee : Renames r k (Term.rename r) (term o .counting callee) (term o (r.after k) callee))
    (hargs : ∀ a ∈ args, Renames r k (Term.rename r) (term o .counting a.value)
      (term o (r.after k) a.value)) :
    Renames r k (Term.rename r) (term o .counting (.call callee args))
      (term o (r.after k) (.call callee args)) := by
  have hplain := renames_plainCall hcallee hargs
  rw [term_call, term_call]
  by_cases hinline : (o.inlineControlFlow && args.all fun a => a.name.isNone) = true
  · rw [if_pos hinline, if_pos hinline]
    split
    · rename_i n c n' y
      exact renames_conditional (hargs ⟨n, c⟩ (by simp)) (hargs ⟨n', y⟩ (by simp)) (.pure rfl)
    · rename_i n c n' y n'' e
      exact renames_conditional (hargs ⟨n, c⟩ (by simp)) (hargs ⟨n', y⟩ (by simp))
        (hargs ⟨n'', e⟩ (by simp))
    · rename_i n name n' q n'' e
      split
      · exact hplain
      · exact renames_loop name (hargs ⟨n', q⟩ (by simp)) (hargs ⟨n'', e⟩ (by simp))
    · exact renames_steps hargs
    · rename_i n name n' e
      split
      · exact hplain
      · exact renames_assignment name (hargs ⟨n', e⟩ (by simp))
    · exact hplain
  · rw [if_neg hinline, if_neg hinline]
    exact hplain

mutual

/-- Drafting an expression with other identities gives the same operand, renamed. -/
theorem renames_term (o : CompilerOptions) (r : IdSource) (k : Taken) : ∀ e : Expr,
    Renames r k (Term.rename r) (term o .counting e) (term o (r.after k) e)
  | .null | .logical _ | .int _ | .double _ | .str _ => .pure rfl
  | .symbol s => by
    unfold term
    split
    · exact .throw
    · exact .pure rfl
  | .function formals body => by
    unfold term
    refine (renames_defaults (renames_formals o r k formals)).bind fun fs =>
      (renames_term o r k body).nested.bind fun b => .bind .node fun n => .pure ?_
    exact Term.rename_closure _ _
  | .call callee args => renames_call (renames_term o r k callee) (renames_args o r k args)

theorem renames_args (o : CompilerOptions) (r : IdSource) (k : Taken) :
    ∀ args : List (Arg Expr), ∀ a ∈ args,
    Renames r k (Term.rename r) (term o .counting a.value) (term o (r.after k) a.value)
  | [], _, ha => absurd ha List.not_mem_nil
  | ⟨_, e⟩ :: rest, a, ha => by
    rcases List.mem_cons.1 ha with rfl | ha
    · exact renames_term o r k e
    · exact renames_args o r k rest a ha

theorem renames_formals (o : CompilerOptions) (r : IdSource) (k : Taken) :
    ∀ formals : List (Formal Expr), ∀ f ∈ formals, ∀ e, f.default = some e →
      Renames r k (Term.rename r) (term o .counting e) (term o (r.after k) e)
  | [], _, hf => absurd hf List.not_mem_nil
  | ⟨_, none⟩ :: rest, f, hf => by
    rcases List.mem_cons.1 hf with rfl | hf
    · exact fun _ he => nomatch he
    · exact renames_formals o r k rest f hf
  | ⟨_, some e⟩ :: rest, f, hf => by
    rcases List.mem_cons.1 hf with rfl | hf
    · intro e' he
      cases he
      exact renames_term o r k e
    · exact renames_formals o r k rest f hf

end

/-- The body of an expression, with other identities. -/
theorem renames_bodyOf (o : CompilerOptions) (r : IdSource) (k : Taken) (e : Expr) :
    Renames r k (Body.rename r) (bodyOf o .counting e) (bodyOf o (r.after k) e) :=
  (renames_term o r k e).nested

/-- A function literal, with other identities. -/
theorem renames_procedureOf (o : CompilerOptions) (r : IdSource) (k : Taken) (name : Option Symbol)
    (f : Function) :
    Renames r k (Procedure.rename r) (procedureOf o .counting name f)
      (procedureOf o (r.after k) name f) :=
  (renames_defaults (renames_formals o r k f.formals)).bind fun _ =>
    (renames_bodyOf o r k f.body).bind fun _ => .pure rfl

end Drafting

end CallByNeed.Flow
