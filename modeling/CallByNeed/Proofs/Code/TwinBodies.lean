import CallByNeed.Proofs.Code.TwinOperands
import CallByNeed.Proofs.Code.Unit

/-!
# Bodies under other identities

The unit of a tidy body is the same under all identities, and it is refused for reasons of source
only (`Compiling.coincides_unitWithin`). The blocks of the graph are gone through line by line, with
what each line needs and settles; in the end every label is placed, so that all jumps can be
completed unless their targets lie too far away.
-/

namespace CallByNeed

open CallByNeed.Flow (Term Thunk Procedure Operands Label SlotKey IdSource Body Line Block Graph
  Statement Target)

/-! ## What lines need and settle -/

namespace Standing

variable (w : Standing)

/-- What is settled behind a statement. -/
def after (s : Statement Term) : Standing := { w with keys := s.slot?.toList ++ w.keys }

/-- What is settled behind lines. -/
def along (w : Standing) : Body → Standing
  | [] => w
  | .label l :: rest => (w.place l).along rest
  | .statement s :: rest => (w.after s).along rest

lemma along_append (b c : Body) : w.along (b ++ c) = (w.along b).along c := by
  induction b generalizing w with
  | nil => rfl
  | cons line b ih => cases line <;> exact ih _

lemma idle_along (b : Body) : (w.along b).idle = w.idle := by
  induction b generalizing w with
  | nil => rfl
  | cons line b ih => cases line <;> exact ih _

lemma placed_along (b : Body) : (w.along b).placed = b.labels.reverse ++ w.placed := by
  induction b generalizing w with
  | nil => rfl
  | cons line b ih =>
    cases line with
    | label l =>
      show ((w.place l).along b).placed = _
      rw [ih, Body.labels_label, List.reverse_cons, List.append_assoc]
      rfl
    | statement s => exact ih _

end Standing

namespace Ground

variable {G : Ground} {w : Standing} {nested nested' : Nested}

/-- What is assigned in a statement was planned. -/
def Planned (o : CompilerOptions) (planned : List SlotKey) : Statement Term → Prop
  | .assign target t => ∀ key, target.slotKey? = some key →
    Assemble.kindOf o t = .value → key ∈ planned
  | _ => True

/-- What a statement needs: its operand is ready, its targets are labels of the body, and what it
assigns was planned. -/
structure Sits (G : Ground) (nested nested' : Nested) (keys : List SlotKey)
    (s : Statement Term) : Prop where
  ready : ∀ t, s.operand? = some t → G.Ready nested nested' keys t
  targets : ∀ l ∈ s.successors, l ∈ G.labels
  planned : Planned G.options G.planned s

/-- What lines need, one after the other. -/
def Writes (G : Ground) (nested nested' : Nested) : Standing → Body → Prop
  | _, [] => True
  | w, .label l :: rest => l ∈ G.labels ∧ l ∉ w.placed ∧ Writes G nested nested' (w.place l) rest
  | w, .statement s :: rest =>
    G.Sits nested nested' w.keys s ∧ Writes G nested nested' (w.after s) rest

lemma writes_append {b c : Body} (h : G.Writes nested nested' w (b ++ c)) :
    G.Writes nested nested' w b ∧ G.Writes nested nested' (w.along b) c := by
  induction b generalizing w with
  | nil => exact ⟨trivial, h⟩
  | cons line b ih =>
    cases line with
    | label l =>
      obtain ⟨hl, hnew, h⟩ := h
      exact ⟨⟨hl, hnew, (ih h).1⟩, (ih h).2⟩
    | statement s => exact ⟨⟨h.1, (ih h.2).1⟩, (ih h.2).2⟩

/-- Lines in order have what they need. -/
lemma writes_of {b : Body} (hdefined : Body.Defined w.keys b) (hnodup : b.labels.Nodup)
    (hlabels : ∀ l ∈ b.labels, l ∈ G.labels ∧ l ∉ w.placed) (htargets : ∀ l ∈ b.targets, l ∈ G.labels)
    (hpaired : ∀ t ∈ b.operands, t.Paired) (hunits : ∀ v ∈ b.meets, v.Coincides G.ids nested nested')
    (hplan : ∀ s ∈ b.statements, Planned G.options G.planned s) :
    G.Writes nested nested' w b := by
  induction b generalizing w with
  | nil => trivial
  | cons line b ih =>
    cases line with
    | label l =>
      obtain ⟨hl, hnew⟩ := hlabels l List.mem_cons_self
      obtain ⟨hlb, hnodup⟩ := List.nodup_cons.1 hnodup
      refine ⟨hl, hnew, ih hdefined hnodup (fun l' hl' => ?_) htargets hpaired hunits hplan⟩
      obtain ⟨hall, hplaced⟩ := hlabels l' (List.mem_cons_of_mem _ hl')
      refine ⟨hall, fun hmem => ?_⟩
      rcases List.mem_cons.1 hmem with rfl | hmem
      · exact hlb hl'
      · exact hplaced hmem
    | statement s =>
      rw [Body.operands_statement] at hpaired
      rw [Body.meets_statement] at hunits
      rw [Body.targets_statement] at htargets
      refine ⟨⟨fun t ht => ⟨?_, ?_, ?_⟩, ?_, hplan s List.mem_cons_self⟩, ih hdefined.2 hnodup
        hlabels ?_ ?_ ?_ fun s' hs' => hplan s' (List.mem_cons_of_mem _ hs')⟩
      · intro k hk
        refine hdefined.1 k ?_
        unfold Statement.reads
        rwa [ht]
      · exact hpaired t (List.mem_append_left _ (by simp [ht]))
      · intro v hv
        refine hunits v (List.mem_append_left _ ?_)
        rw [Flow.Statement.visits_eq, ht]
        exact hv
      · exact fun l hl => htargets l (List.mem_append_left _ hl)
      · exact fun l hl => htargets l (List.mem_append_right _ hl)
      · exact fun t ht => hpaired t (List.mem_append_right _ ht)
      · exact fun v hv => hunits v (List.mem_append_right _ hv)

/-! ## Assignments -/

lemma kindOf_rename (ids : IdSource) (o : CompilerOptions) (t : Term) :
    Assemble.kindOf o (t.rename ids) = Assemble.kindOf o t := by
  unfold Assemble.kindOf
  cases t with
  | call f o => rw [Term.rename_call]
  | primitive s o => rw [Term.rename_primitive]
  | _ => rfl

lemma slotKey?_rename (ids : IdSource) (t : Term) :
    (t.rename ids).slotKey? = t.slotKey?.map (SlotKey.rename ids) := by
  cases t with
  | call f o =>
    rw [Term.rename_call]
    rfl
  | primitive s o =>
    rw [Term.rename_primitive]
    rfl
  | _ => rfl

lemma intSlot?_rename {a a' : Assembly} (h : G.Twin w a a') (t : Term) :
    Assemble.intSlot? a'.slots (t.rename G.ids) = Assemble.intSlot? a.slots t := by
  unfold Assemble.intSlot?
  rw [slotKey?_rename]
  cases t.slotKey? with
  | none => rfl
  | some key =>
    show (a'.slots.lookup? (key.rename G.ids)).bind _ = (a.slots.lookup? key).bind _
    rw [h.slots.lookup? G.injective]

lemma counterInPlace?_rename {a a' : Assembly} (h : G.Twin w a a') (key : SlotKey) (t : Term) :
    Assemble.counterInPlace? a'.options a'.slots (key.rename G.ids) (t.rename G.ids)
      = Assemble.counterInPlace? a.options a.slots key t := by
  rw [h.options.1, h.options.2]
  cases t with
  | increment counter =>
    have hkey : (counter.rename G.ids).slotKey? = some (key.rename G.ids) ↔
        counter.slotKey? = some key := by
      rw [slotKey?_rename]
      cases counter.slotKey? with
      | none => simp
      | some k =>
        simp only [Option.map_some, Option.some.injEq]
        exact (Slots.injective_renameKey G.injective).eq_iff
    simp only [Assemble.counterInPlace?, Term.rename, hkey, intSlot?_rename h]
  | call f o =>
    rw [Term.rename_call]
    rfl
  | primitive s o =>
    rw [Term.rename_primitive]
    rfl
  | _ => rfl

lemma nativeComparison?_rename {a a' : Assembly} (h : G.Twin w a a') (t : Term) :
    Assemble.nativeComparison? a'.options a'.slots (t.rename G.ids)
      = Assemble.nativeComparison? a.options a.slots t := by
  rw [h.options.1, h.options.2]
  cases t with
  | atLeast left right =>
    simp only [Assemble.nativeComparison?, Term.rename, intSlot?_rename h]
  | call f o =>
    rw [Term.rename_call]
    rfl
  | primitive s o =>
    rw [Term.rename_primitive]
    rfl
  | _ => rfl

/-- A key that has a slot. -/
lemma Twin.assigned {a a' : Assembly} {key : SlotKey} (h : G.Twin w a a')
    (hkey : (a.slots.lookup? key).isSome) : G.Twin (w.assign key) a a' where
  unit := h.unit
  options := h.options
  emitter := h.emitter
  journal := h.journal
  pool := h.pool
  slots := h.slots
  jumps := h.jumps
  thunks := h.thunks
  closures := h.closures
  keys := by
    refine ⟨h.keys.boxed, fun k hk => ?_, h.keys.kinds⟩
    rcases List.mem_cons.1 hk with rfl | hk
    · exact hkey
    · exact h.keys.assigned k hk
  targets := h.targets

/-- A counter that is increased in place has a slot. -/
lemma lookup?_of_counterInPlace? {o : CompilerOptions} {s : Slots} {key : SlotKey} {t : Term}
    {slot : Slot} (h : Assemble.counterInPlace? o s key t = some slot) : (s.lookup? key).isSome := by
  unfold Assemble.counterInPlace? at h
  split at h
  · split at h
    · rename_i counter hc
      unfold Assemble.intSlot? at h
      rw [hc.2] at h
      cases hl : s.lookup? key with
      | none =>
        simp only [Option.bind_eq_bind, Option.bind_some] at h
        rw [hl] at h
        cases h
      | some slot => rfl
    · cases h
  · cases h

lemma Ready.mono {keys keys' : List SlotKey} {t : Term} (h : G.Ready nested nested' keys t)
    (hk : ∀ k ∈ keys, k ∈ keys') : G.Ready nested nested' keys' t :=
  ⟨fun k hm => hk k (h.reads k hm), h.paired, h.units⟩

/-- An assignment to a slot. -/
lemma Twins.assignSlot {k : SlotKey} {t : Term} (ht : G.Ready nested nested' w.keys t)
    (hplan : Assemble.kindOf G.options t = .value → k ∈ G.planned) :
    G.Twins w (Assemble.assignSlot nested k t)
      (Assemble.assignSlot nested' (k.rename G.ids) (t.rename G.ids))
      fun _ => G.Twin (w.assign k) := by
  intro a a' ha
  unfold Assemble.assignSlot
  rw [Assemble.get_bind_apply, Assemble.get_bind_apply, counterInPlace?_rename ha]
  cases hc : Assemble.counterInPlace? a.options a.slots k t with
  | some slot => exact .ok ((ha.append _).assigned (lookup?_of_counterInPlace? hc))
  | none =>
    have hterm : G.Keeps (w.assign k) (Assemble.term nested t)
        (Assemble.term nested' (t.rename G.ids)) :=
      Keeps.term t (ht.mono fun _ h => List.mem_cons_of_mem _ h)
    dsimp only
    rw [kindOf_rename, ha.options.1, ha.options.2]
    refine (Twins.slotFor hplan).bind (fun slot => ?_) a a' ha
    obtain ⟨index, _ | _⟩ := slot
    · exact hterm.unboxed.seq (Keeps.emit _ _)
    · exact hterm.boxed.seq (Keeps.emit _ _)

/-! ## Statements -/

/-- A piece that ends in a transfer of control. -/
def Leaves (G : Ground) (w : Standing) (c c' : Assemble Unit) : Prop :=
  G.Twins w c c' fun _ a a' => G.Twin w a a' ∧ a.emitter.endsInTransfer = true

lemma Leaves.jump {m : Mark} (hm : m ∈ w.known) :
    G.Leaves w (Assemble.jump .jump m) (Assemble.jump .jump m) := by
  intro a a' ha
  rcases (Keeps.jump .jump hm a a' ha).ends with ⟨x, b, b', hb, hb', h⟩ | ⟨e, b, b', hb, -⟩
  · rw [hb, hb']
    cases hb
    exact .ok ⟨h, rfl⟩
  · cases hb

lemma Leaves.ret : G.Leaves w (Assemble.emit .ret []) (Assemble.emit .ret []) :=
  fun _ _ ha => .ok ⟨ha.append _, rfl⟩

/-- Less may be settled. -/
lemma Twins.leaves {w' : Standing} {c c' : Assemble Unit}
    (h : G.Twins w' c c' fun _ a a' => G.Twin w' a a' ∧ a.emitter.endsInTransfer = true)
    (hkeys : w'.keys = w.keys) (hplaced : w.placed = w'.placed) (hidle : w.idle = w'.idle)
    (hknown : ∀ m ∈ w.known, m ∈ w'.known) :
    G.Twins w' c c' fun _ a a' => G.Twin w a a' ∧ a.emitter.endsInTransfer = true :=
  h.mono fun _ _ _ h =>
    ⟨h.1.mono (fun k hk => by rwa [hkeys]) hplaced hidle hknown, h.2⟩

/-- A branch. -/
lemma Leaves.branch {t : Term} {yes no : Label} (ht : G.Ready nested nested' w.keys t)
    (hyes : yes ∈ G.labels) (hno : no ∈ G.labels) :
    G.Leaves w (Assemble.branch nested t yes no)
      (Assemble.branch nested' (t.rename G.ids) (yes.rename G.ids) (no.rename G.ids)) := by
  refine (Twins.resolve hyes).bind fun m => (Twins.resolve hno).bind fun n => ?_
  have hm : m ∈ ((w.aim m).aim n).known := by simp [Standing.aim]
  have hn : n ∈ ((w.aim m).aim n).known := by simp [Standing.aim]
  have hjump : G.Twins ((w.aim m).aim n) (Assemble.jump .jump m) (Assemble.jump .jump m)
      fun _ a a' => G.Twin w a a' ∧ a.emitter.endsInTransfer = true :=
    Twins.leaves (Leaves.jump hm) rfl rfl rfl fun k hk => by simp [Standing.aim, hk]
  intro a a' ha
  rw [Assemble.get_bind_apply, Assemble.get_bind_apply, nativeComparison?_rename ha]
  cases Assemble.nativeComparison? a.options a.slots t with
  | some pair =>
    obtain ⟨left, right⟩ := pair
    exact (Keeps.emit _ _).seq ((Keeps.emit _ _).seq ((Keeps.jump .jumpIfIntLess hn).seq hjump)) a a'
      ha
  | none =>
    have hterm : G.Keeps ((w.aim m).aim n) (Assemble.term nested t)
        (Assemble.term nested' (t.rename G.ids)) := Keeps.term t ht
    exact hterm.boxed.seq ((Keeps.emit _ _).seq ((Keeps.jump .jumpIfZero hn).seq hjump)) a a' ha

/-- A statement that transfers control. -/
lemma Leaves.statement {s : Statement Term} (hs : s.isTransfer = true)
    (h : G.Sits nested nested' w.keys s) :
    G.Leaves w (Assemble.statement nested s) (Assemble.statement nested' (s.rename G.ids)) := by
  cases s with
  | assign target t => cases hs
  | eval t => cases hs
  | goto l =>
    refine (Twins.resolve (h.targets l List.mem_cons_self)).bind fun m => ?_
    exact Twins.leaves (Leaves.jump (by simp [Standing.aim])) rfl rfl rfl fun k hk => by
      simp [Standing.aim, hk]
  | branch t yes no =>
    exact Leaves.branch (h.ready t rfl) (h.targets yes (by simp [Statement.successors]))
      (h.targets no (by simp [Statement.successors]))
  | ret t => exact (Keeps.term t (h.ready t rfl)).boxed.seq Leaves.ret

/-- A statement. -/
lemma Twins.statement {s : Statement Term} (h : G.Sits nested nested' w.keys s) :
    G.Twins w (Assemble.statement nested s) (Assemble.statement nested' (s.rename G.ids))
      fun _ => G.Twin (w.after s) := by
  cases s with
  | assign target t =>
    have ht := h.ready t rfl
    cases target with
    | temp id => exact Twins.assignSlot (k := .temp id) ht (h.planned _ rfl)
    | «local» id name => exact Twins.assignSlot (k := .local id) ht (h.planned _ rfl)
    | env name =>
      exact (Keeps.term t ht).boxed.seq ((Keeps.nameIndex name).bind fun _ => Keeps.emit _ _)
  | eval t =>
    exact (Keeps.term t (h.ready t rfl)).bind fun _ => Keeps.emit _ _
  | goto l => exact (Leaves.statement rfl h).mono fun _ _ _ h => h.1
  | branch t yes no => exact (Leaves.statement rfl h).mono fun _ _ _ h => h.1
  | ret t => exact (Leaves.statement rfl h).mono fun _ _ _ h => h.1

lemma statements_append (nested : Nested) (first rest : List (Statement Term)) :
    Assemble.statements nested (first ++ rest)
      = Assemble.statements nested first >>= fun _ => Assemble.statements nested rest := by
  induction first with
  | nil => simp only [List.nil_append, Assemble.statements, pure_bind]
  | cons s first ih =>
    simp only [List.cons_append, Assemble.statements, ih, bind_assoc]

/-- Statements in order. -/
lemma Twins.statements {ss : List (Statement Term)}
    (h : G.Writes nested nested' w (ss.map .statement)) :
    G.Twins w (Assemble.statements nested ss)
      (Assemble.statements nested' (ss.map (Statement.rename G.ids)))
      fun _ => G.Twin (w.along (ss.map .statement)) := by
  induction ss generalizing w with
  | nil => exact Keeps.pure ()
  | cons s ss ih => exact (Twins.statement h.1).bind fun _ => ih h.2

/-! ## Blocks -/

/-- The labels of a block. -/
lemma Twins.placeLabels {ls : List Label} (h : G.Writes nested nested' w (ls.map .label)) :
    G.Twins w (Assemble.placeLabels ls) (Assemble.placeLabels (ls.map (Label.rename G.ids)))
      fun _ => G.Twin (w.along (ls.map .label)) := by
  induction ls generalizing w with
  | nil => exact Keeps.pure ()
  | cons l ls ih =>
    have hgroup : ∀ (l : Label) (ls : List Label), Assemble.placeLabels (l :: ls)
        = (Assemble.resolve l >>= Assemble.place) >>= fun _ => Assemble.placeLabels ls :=
      fun l ls => (bind_assoc _ _ _).symm
    obtain ⟨hl, hnew, h⟩ := h
    rw [List.map_cons, hgroup, hgroup]
    exact (Twins.placeLabel hl hnew).bind fun _ => ih h

/-- A block that is closed by a transfer. -/
lemma Twins.block {b : Block} (hclosed : b.Closed) (h : G.Writes nested nested' w b.written) :
    G.Twins w (Assemble.block nested b) (Assemble.block nested' (b.rename G.ids))
      fun _ => G.Twin (w.along b.written) := by
  obtain ⟨first, last, hstatements, hlast⟩ := hclosed
  unfold Block.written at h ⊢
  obtain ⟨hlabels, h⟩ := writes_append h
  rw [hstatements, List.map_append] at h ⊢
  obtain ⟨hfirst, hend⟩ := writes_append h
  unfold Assemble.block Block.rename
  rw [hstatements, List.map_append, statements_append, statements_append]
  simp only [bind_assoc]
  refine (Twins.placeLabels hlabels).bind fun _ => (Twins.statements hfirst).bind fun _ => ?_
  have hone : ∀ (nested : Nested) (s : Statement Term),
      Assemble.statements nested [s] = Assemble.statement nested s := fun nested s => bind_pure _
  rw [List.map_singleton, hone, hone]
  have hwritten : w.along (b.labels.map .label ++ (first.map .statement ++ [last].map .statement))
      = (w.along (b.labels.map .label)).along (first.map .statement) := by
    rw [Standing.along_append, Standing.along_append]
    cases last with
    | assign => cases hlast
    | eval => cases hlast
    | _ => rfl
  rw [hwritten]
  intro a a' ha
  refine (Leaves.statement hlast hend.1 a a' ha).bind fun _ c c' hc => ?_
  rw [Assemble.get_bind_apply, Assemble.get_bind_apply, hc.1.emitter, hc.2]
  exact .ok hc.1

/-- Blocks in order. -/
lemma Twins.blocks {g : Graph} (hclosed : ∀ b ∈ g, b.Closed)
    (h : G.Writes nested nested' w (Graph.written g)) :
    G.Twins w (Assemble.blocks nested g) (Assemble.blocks nested' (g.map (Block.rename G.ids)))
      fun _ => G.Twin (w.along (Graph.written g)) := by
  induction g generalizing w with
  | nil => exact Keeps.pure ()
  | cons b g ih =>
    have hwritten : Graph.written (b :: g) = b.written ++ Graph.written g := rfl
    rw [hwritten] at h ⊢
    rw [Standing.along_append]
    obtain ⟨hb, hg⟩ := writes_append h
    exact (Twins.block (hclosed b List.mem_cons_self) hb).bind fun _ =>
      ih (fun b hb => hclosed b (List.mem_cons_of_mem _ hb)) hg

/-! ## Planning -/

/-- Planning an assignment under other identities. -/
lemma renamed_planStatement {ids : IdSource} (hids : ids.Injective) {s s' : Slots}
    (h : s.Renamed ids s') (o : CompilerOptions) (st : Statement Term) :
    (Assemble.planStatement o s st).Renamed ids (Assemble.planStatement o s' (st.rename ids)) := by
  cases st with
  | assign target t =>
    have hplan : ∀ key, (s.plan key (Assemble.kindOf o t)).Renamed ids
        (s'.plan (key.rename ids) (Assemble.kindOf o (t.rename ids))) := by
      intro key
      rw [kindOf_rename]
      exact h.plan hids key _
    cases target with
    | temp id => exact hplan (.temp id)
    | «local» id name => exact hplan (.local id)
    | env name => exact h
  | _ => exact h

/-- All assignments of a graph are planned one after the other. -/
lemma planSlots_eq_foldl (o : CompilerOptions) (s : Slots) (g : Graph) :
    Assemble.planSlots o s g = (g.flatMap Block.statements).foldl (Assemble.planStatement o) s := by
  unfold Assemble.planSlots
  rw [List.foldl_flatMap]

lemma renamed_planSlots {ids : IdSource} (hids : ids.Injective) {s s' : Slots}
    (h : s.Renamed ids s') (o : CompilerOptions) (g : Graph) :
    (Assemble.planSlots o s g).Renamed ids
      (Assemble.planSlots o s' (g.map (Block.rename ids))) := by
  have hstatements : (g.map (Block.rename ids)).flatMap Block.statements
      = (g.flatMap Block.statements).map (Statement.rename ids) := by
    rw [List.flatMap_map, List.map_flatMap]
    rfl
  rw [planSlots_eq_foldl, planSlots_eq_foldl, hstatements]
  generalize g.flatMap Block.statements = ss
  induction ss generalizing s s' with
  | nil => exact h
  | cons st ss ih => exact ih (renamed_planStatement hids h o st)

/-- What is planned stays planned. -/
lemma mem_boxed_planStatement {o : CompilerOptions} {s : Slots} {k : SlotKey} (hk : k ∈ s.boxed)
    (st : Statement Term) : k ∈ (Assemble.planStatement o s st).boxed := by
  have hplan : ∀ key kind, k ∈ (s.plan key kind).boxed := by
    intro key kind
    cases kind with
    | int => exact hk
    | value =>
      unfold Slots.plan
      dsimp only
      split
      · exact hk
      · exact List.mem_cons_of_mem _ hk
  cases st with
  | assign target t =>
    unfold Assemble.planStatement
    dsimp only
    cases target.slotKey? with
    | none => exact hk
    | some key => exact hplan key _
  | _ => exact hk

lemma mem_boxed_foldl {o : CompilerOptions} (ss : List (Statement Term)) {s : Slots} {k : SlotKey}
    (hk : k ∈ s.boxed) : k ∈ (ss.foldl (Assemble.planStatement o) s).boxed := by
  induction ss generalizing s with
  | nil => exact hk
  | cons st ss ih => exact ih (mem_boxed_planStatement hk st)

/-- All assignments of a graph are planned. -/
lemma planned_planSlots (o : CompilerOptions) (s : Slots) (g : Graph) :
    ∀ st ∈ g.flatMap Block.statements, Planned o (Assemble.planSlots o s g).boxed st := by
  rw [planSlots_eq_foldl]
  generalize g.flatMap Block.statements = ss
  induction ss generalizing s with
  | nil => exact nofun
  | cons st ss ih =>
    intro st' hst'
    rcases List.mem_cons.1 hst' with rfl | hst'
    · cases st' with
      | assign target t =>
        intro key hkey hkind
        refine mem_boxed_foldl ss ?_
        unfold Assemble.planStatement
        dsimp only
        rw [hkey, hkind]
        unfold Slots.plan
        dsimp only
        split
        · exact List.contains_iff_mem.1 ‹_›
        · exact List.mem_cons_self
      | _ => trivial
    · exact ih _ st' hst'

/-! ## Finishing -/

/-- The jumps among sketches are noted. -/
lemma mem_pendingFrom {ks : List Sketch} {op : Opcode} {m : Mark} (h : Sketch.jump op m ∈ ks)
    (p : Nat) : ∃ offset, (offset, m) ∈ Sketch.pendingFrom p ks := by
  induction ks generalizing p with
  | nil => cases h
  | cons k ks ih =>
    rcases List.mem_cons.1 h with rfl | htail
    · exact ⟨p, List.mem_cons_self⟩
    · cases k with
      | plain i => exact ih htail _
      | jump op' m' =>
        obtain ⟨offset, hmem⟩ := ih htail (p + op'.size)
        exact ⟨offset, List.mem_cons_of_mem _ hmem⟩

/-- When everything is placed, a unit is finished unless a jump goes too far. -/
lemma Twin.finish {a a' : Assembly} (ha : G.Twin w a a') (hs : a.Sound) (hidle : w.idle = [])
    (hplaced : ∀ l ∈ G.labels, l ∈ w.placed) :
    EndsAlike Assembly.journal (fun _ b b' => b'.journal = b.journal) (Assemble.finish a)
      (Assemble.finish a') := by
  have hstands := ha.targets
  rw [hidle] at hstands
  have hbound : ∀ p ∈ a.jumps.pending.toList, ∃ t, a.jumps.position? p.2 = some t :=
    fun p hp => hstands.complete hplaced p.2.index (hstands.pending p hp)
  have happly : a'.jumps.apply a'.emitter.code = a.jumps.apply a.emitter.code := by
    unfold Jumps.apply
    rw [ha.jumps.pending, ha.emitter]
    exact Jumps.patchAll_congr ha.jumps.positions hbound _
  obtain ⟨ks, hks⟩ := hs.draws
  unfold Assemble.finish
  rw [Assemble.get_bind_apply, Assemble.get_bind_apply, happly]
  rcases hcode : a.jumps.apply a.emitter.code with ⟨code, _ | f⟩
  · dsimp only
    rw [ha.unit, ha.pool.entries, ha.slots.frameSize, ha.thunks.units, ha.closures.units]
    exact .ok (congrArg (Array.push · _) ha.journal)
  · obtain ⟨target, hfar, rfl⟩ : ∃ target, UInt16.size ≤ target ∧
        f = .error (.defect (.jumpTargetOutOfRange target)) := by
      refine Jumps.patchAll_sketch_error hks.sound [] hks.code (fun op m hm => ?_)
        (by rw [← hcode, Jumps.apply, hks.pending]; rfl)
      obtain ⟨offset, hmem⟩ := mem_pendingFrom hm 0
      exact hbound (offset, m) (by rwa [hks.pending])
    exact .error hfar ha.journal

end Ground

/-! ## Units -/

lemma Flow.Graph.statements_written (g : Graph) :
    Body.statements (Graph.written g) = g.flatMap Block.statements := by
  have hlabels : ∀ ls : List Label, Body.statements (ls.map .label) = [] := by
    intro ls
    induction ls with
    | nil => rfl
    | cons l ls ih => exact ih
  have hstatements : ∀ ss : List (Statement Term), Body.statements (ss.map .statement) = ss := by
    intro ss
    induction ss with
    | nil => rfl
    | cons s ss ih => rw [List.map_cons, Body.statements_statement, ih]
  induction g with
  | nil => rfl
  | cons b g ih =>
    show Body.statements (b.labels.map .label ++ b.statements.map .statement ++ Graph.written g) = _
    rw [Body.statements_append, Body.statements_append, hlabels, hstatements, ih]
    rfl

/-- Nothing is settled at the start of a unit. -/
def Standing.start : Standing := ⟨[], [], [], []⟩

namespace Compiling

variable {ids : IdSource} {o : CompilerOptions} {nested nested' : Nested}

/-- The start of a unit under other identities, when its slots are planned. -/
lemma twin_start (hids : ids.Injective) (o : CompilerOptions) (name : String) (j : Journal)
    (g : Graph) (all : List Label) :
    Ground.Twin
      ⟨ids, hids, o, all, (Assemble.planSlots o ⟨name, firstLocalSlot, [], []⟩ g).boxed⟩ .start
      { Assembly.start name o j with
        slots := Assemble.planSlots o ⟨name, firstLocalSlot, [], []⟩ g }
      { Assembly.start name o j with
        slots := Assemble.planSlots o ⟨name, firstLocalSlot, [], []⟩
          (g.map (Block.rename ids)) } := by
  have hnone : ∀ i : Nat, (∅ : Std.TreeMap Nat Nat)[i]? = none := fun i => by simp
  have hmark : ∀ m, ({} : Jumps).position? m = none := fun m => by simp [Jumps.position?]
  have hempty : ∀ {id i : Nat} {q : Prop}, (∅ : Std.TreeMap Nat Nat)[id]? = some i → q :=
    fun h => by cases (hnone _).symm.trans h
  obtain ⟨boxed, hboxed⟩ := Assemble.planSlots_eq o ⟨name, firstLocalSlot, [], []⟩ g
  exact {
    unit := rfl
    options := ⟨rfl, rfl⟩
    emitter := rfl
    journal := rfl
    pool := ⟨rfl, rfl, rfl, rfl, fun id => (hnone _).trans (hnone id).symm⟩
    slots := Ground.renamed_planSlots hids ⟨rfl, rfl, rfl, rfl⟩ o g
    jumps := ⟨rfl, fun _ => rfl, fun id => (hnone _).trans (hnone id).symm, rfl⟩
    thunks := ⟨rfl, fun node => (hnone _).trans (hnone node.id).symm⟩
    closures := ⟨rfl, fun node => (hnone _).trans (hnone node.id).symm⟩
    keys := by
      refine ⟨rfl, fun k h => absurd h List.not_mem_nil, fun k slot h => ?_⟩
      have h : (Assemble.planSlots o ⟨name, firstLocalSlot, [], []⟩ g).lookup? k = some slot := h
      rw [hboxed] at h
      cases h
    targets := {
      sound := ⟨fun _ _ h => hempty h, fun _ _ _ h => hempty h⟩
      labels := fun _ _ h => hempty h
      bound := fun _ h => absurd h List.not_mem_nil
      unbound := fun _ _ h => hempty h
      loose := fun _ h => absurd h List.not_mem_nil
      distinct := .nil
      others := fun i hi => absurd hi (Nat.not_lt_zero i)
      targets := fun _ h => absurd h List.not_mem_nil
      pending := fun _ h => absurd h List.not_mem_nil } }

/-- The unit of a tidy body does not depend on identities, if those of the bodies nested in it do
not. -/
theorem coincides_unitWith (hids : ids.Injective) {b : Body} (hb : b.Tidy)
    (hunits : ∀ v ∈ Body.meets (Graph.written (Graph.ofBody b)), v.Coincides ids nested nested')
    (name : String) :
    Coincides (unitWith o nested name b) (unitWith o nested' name (b.rename ids)) := by
  obtain ⟨hsequenced, hreached⟩ := hb.sequenced
  have hreached' : Graph.unreachable (b.rename ids) = [] := by
    rw [Graph.unreachable_rename, hreached]
    rfl
  intro j
  let G : Ground := ⟨ids, hids, o, Body.labels (Graph.written (Graph.ofBody b)),
    (Assemble.planSlots o ⟨name, firstLocalSlot, [], []⟩ (Graph.ofBody b)).boxed⟩
  have hstart : G.Twin .start _ _ := twin_start hids o name j (Graph.ofBody b) _
  have hwrites : G.Writes nested nested' .start (Graph.written (Graph.ofBody b)) := by
    refine Ground.writes_of hsequenced.defined hsequenced.labels (fun l hl => ⟨hl, nofun⟩)
      hsequenced.targets hsequenced.paired hunits ?_
    rw [Graph.statements_written]
    exact Ground.planned_planSlots o _ _
  have hrun : ∀ (nested : Nested) (b : Body), Graph.unreachable b = [] →
      Assemble.body nested b (.start name o j)
        = (Assemble.blocks nested (Graph.ofBody b) >>= fun _ => Assemble.finish)
          { Assembly.start name o j with
            slots := Assemble.planSlots o ⟨name, firstLocalSlot, [], []⟩ (Graph.ofBody b) } := by
    intro nested b h
    unfold Assemble.body
    rw [h]
    rfl
  have hbody : EndsAlike Assembly.journal (fun _ c c' => c'.journal = c.journal)
      (Assemble.body nested b (.start name o j))
      (Assemble.body nested' (b.rename ids) (.start name o j)) := by
    rw [hrun nested b hreached, hrun nested' _ hreached', Graph.ofBody_rename]
    rw [Assemble.bind_apply, Assemble.bind_apply]
    have hblocks := Ground.Twins.blocks (Graph.closed_ofBody b) hwrites _ _ hstart
    rcases hblocks.ends with ⟨x, z, z', hz, hz', htwin⟩ | ⟨e, z, z', hz, hz', he, hj⟩
    · rw [hz, hz']
      have hsound : z.Sound := by
        obtain ⟨boxed, hboxed⟩ :=
          Assemble.planSlots_eq o ⟨name, firstLocalSlot, [], []⟩ (Graph.ofBody b)
        refine ((Lays.blocks (Graph.ofBody b) _ x z hz ?_).1).2.1
        rw [hboxed]
        exact (@Assembly.sound_start _ name o j j boxed rfl).1
      refine htwin.finish hsound (Standing.idle_along _ _) fun l hl => ?_
      rw [Standing.placed_along]
      exact List.mem_append_left _ (List.mem_reverse.2 hl)
    · rw [hz, hz']
      exact .error he hj
  unfold unitWith
  rcases hbody.ends with ⟨u, z, z', hz, hz', hj⟩ | ⟨e, z, z', hz, hz', he, hj⟩
  · rw [hz, hz']
    exact .ok hj
  · rw [hz, hz']
    exact .error he hj

/-- The unit of a tidy body does not depend on identities, and is refused for reasons of source
only. -/
theorem coincides_unitWithin (hids : ids.Injective) (o : CompilerOptions) (depth : Nat) {b : Body}
    (hb : b.Tidy) (name : String) :
    Coincides (unitWithin o depth name b) (unitWithin o depth name (b.rename ids)) := by
  induction depth generalizing b name with
  | zero => exact .pure _
  | succ depth ih =>
    refine coincides_unitWith hids hb (fun v hv => ?_) name
    have htidy := hb.sequenced.1.tidy v hv
    cases v with
    | thunk d => exact fun name => ih htidy name
    | closure node p =>
      exact ⟨fun name => ih htidy.body name, fun f hf d hd name => ih (htidy.defaults f hf d hd) name⟩
    | site c => trivial

/-- The unit of a tidy body. -/
theorem coincides_unit (hids : ids.Injective) (o : CompilerOptions) {b : Body} (hb : b.Tidy)
    (name : String) : Coincides (unit o name b) (unit o name (b.rename ids)) := by
  unfold unit
  rw [Flow.Body.depth_rename]
  exact coincides_unitWithin hids o _ hb name

/-- The unit of a tidy function literal. -/
theorem coincides_function (hids : ids.Injective) (o : CompilerOptions) {p : Procedure Term}
    (hp : p.Tidy) (name : String) :
    Coincides (function o name p) (function o name (p.rename ids)) := by
  unfold function
  rw [Flow.Procedure.depth_rename]
  exact Assemble.coincides_functionUnit (fun name => coincides_unitWithin hids o _ hp.body name)
    (fun f hf d hd name => coincides_unitWithin hids o _ (hp.defaults f hf d hd) name) name

end Compiling

end CallByNeed
