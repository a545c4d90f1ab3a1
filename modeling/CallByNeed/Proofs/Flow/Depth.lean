import CallByNeed.Proofs.Flow.Drafts

/-!
# How deeply bodies nest

What is met in a body, late arguments and function literals, is less deep than the body, so that the
compiler gets to the bottom of it (`Flow.Body.depth_visits`).
-/

namespace CallByNeed

open CallByNeed.Flow (Term Thunk Procedure NodeId Graph Block Body)

/-- The operand of a statement. -/
def Flow.Statement.operand? : Flow.Statement Term → Option Term
  | .assign _ t | .eval t | .branch t _ _ | .ret t => some t
  | .goto _ => none

/-! ## The depth of operands and lines -/

namespace Flow.Term

mutual

/-- Accumulating depths does not lose any. -/
lemma le_depth : ∀ (t : Term) (acc : Nat), acc ≤ t.depth acc
  | .int _, _ | .literal _, _ | .temp _, _ | .local .., _ | .env _, _ | .ellipsis, _ => Nat.le_refl _
  | .element vector index, acc => Nat.le_trans (le_depth vector acc) (le_depth index _)
  | .length t, acc => le_depth t acc
  | .increment t, acc => le_depth t acc
  | .atLeast left right, acc => Nat.le_trans (le_depth left acc) (le_depth right _)
  | .closure _ ⟨_, _, _⟩, _ => Nat.le_max_left ..
  | .thunk ⟨_, _, _⟩, _ => Nat.le_max_left ..
  | .primitive _ ⟨_, args, _⟩, acc => le_depths args acc
  | .call (.name _) ⟨_, args, _⟩, acc => le_depths args acc
  | .call (.computed t) ⟨_, args, _⟩, acc => Nat.le_trans (le_depth t acc) (le_depths args _)

lemma le_depths : ∀ (ts : List Term) (acc : Nat), acc ≤ depths acc ts
  | [], _ => Nat.le_refl _
  | t :: ts, acc => Nat.le_trans (le_depth t acc) (le_depths ts _)

end

mutual

/-- More that is accumulated does not make the depth smaller. -/
lemma depth_mono : ∀ (t : Term) {acc acc' : Nat}, acc ≤ acc' → t.depth acc ≤ t.depth acc'
  | .int _, _, _, h | .literal _, _, _, h | .temp _, _, _, h | .local .., _, _, h
  | .env _, _, _, h | .ellipsis, _, _, h => h
  | .element vector index, _, _, h => depth_mono index (depth_mono vector h)
  | .length t, _, _, h => depth_mono t h
  | .increment t, _, _, h => depth_mono t h
  | .atLeast left right, _, _, h => depth_mono right (depth_mono left h)
  | .closure _ ⟨_, _, _⟩, _, _, h => by
    unfold depth
    omega
  | .thunk ⟨_, _, _⟩, _, _, h => by
    unfold depth
    omega
  | .primitive _ ⟨_, args, _⟩, _, _, h => depths_mono args h
  | .call (.name _) ⟨_, args, _⟩, _, _, h => depths_mono args h
  | .call (.computed t) ⟨_, args, _⟩, _, _, h => depths_mono args (depth_mono t h)

lemma depths_mono : ∀ (ts : List Term) {acc acc' : Nat}, acc ≤ acc' → depths acc ts ≤ depths acc' ts
  | [], _, _, h => h
  | t :: ts, _, _, h => depths_mono ts (depth_mono t h)

end

/-- The depth of lines counts the operands. -/
lemma linesDepth_cons (line : Flow.Line Term) (b : Body) (acc : Nat) :
    linesDepth acc (line :: b) = linesDepth (match line with
      | .label _ => acc
      | .statement s => (s.operand?.map (depth acc)).getD acc) b := by
  match line with
  | .label _ => rfl
  | .statement (.assign _ _) => rfl
  | .statement (.eval _) => rfl
  | .statement (.goto _) => rfl
  | .statement (.branch _ _ _) => rfl
  | .statement (.ret _) => rfl

lemma linesDepth_mono (b : Body) {acc acc' : Nat} (h : acc ≤ acc') :
    linesDepth acc b ≤ linesDepth acc' b := by
  induction b generalizing acc acc' with
  | nil => exact h
  | cons line b ih =>
    rw [linesDepth_cons, linesDepth_cons]
    refine ih ?_
    cases line with
    | label l => exact h
    | statement s =>
      dsimp only
      cases s.operand? with
      | none => exact h
      | some t => exact depth_mono t h

lemma le_linesDepth (b : Body) (acc : Nat) : acc ≤ linesDepth acc b := by
  induction b generalizing acc with
  | nil => exact Nat.le_refl acc
  | cons line b ih =>
    rw [linesDepth_cons]
    refine Nat.le_trans ?_ (ih _)
    cases line with
    | label l => exact Nat.le_refl acc
    | statement s =>
      dsimp only
      cases s.operand? with
      | none => exact Nat.le_refl acc
      | some t => exact le_depth t acc

/-- The bodies of defaults are not deeper than all of them. -/
lemma default_le_formalsDepth {x : Formal Thunk} {d : Thunk} (hd : x.default = some d) :
    ∀ {xs : List (Formal Thunk)} (acc : Nat), x ∈ xs →
      acc ≤ formalsDepth acc xs ∧ linesDepth 0 d.body ≤ formalsDepth acc xs := by
  have hle : ∀ (xs : List (Formal Thunk)) (acc : Nat), acc ≤ formalsDepth acc xs := by
    intro xs
    induction xs with
    | nil => exact fun acc => Nat.le_refl acc
    | cons x xs ih =>
      intro acc
      match x with
      | ⟨_, none⟩ => exact ih acc
      | ⟨_, some ⟨_, _, body⟩⟩ => exact Nat.le_trans (le_linesDepth body acc) (ih _)
  intro xs
  induction xs with
  | nil => exact nofun
  | cons y xs ih =>
    intro acc hx
    refine ⟨hle _ acc, ?_⟩
    rcases List.mem_cons.1 hx with rfl | hmem
    · obtain ⟨name, default⟩ := x
      dsimp only at hd
      subst hd
      obtain ⟨node, source, body⟩ := d
      exact Nat.le_trans (linesDepth_mono body (Nat.zero_le acc)) (hle xs _)
    · match y with
      | ⟨_, none⟩ => exact (ih acc hmem).2
      | ⟨_, some ⟨_, _, body⟩⟩ => exact (ih (linesDepth acc body) hmem).2

end Flow.Term

/-- The body of a procedure is less deep than the procedure. -/
lemma Flow.Procedure.depth_body (p : Procedure Term) : Body.depth p.body < p.depth :=
  Nat.succ_le_succ (Flow.Term.linesDepth_mono p.body (Nat.zero_le _))

/-- The defaults of a procedure are less deep than the procedure. -/
lemma Flow.Procedure.depth_default {p : Procedure Term} {x : Formal Thunk} {d : Thunk}
    (hx : x ∈ p.formals) (hd : x.default = some d) : Body.depth d.body < p.depth :=
  Nat.lt_of_le_of_lt (Flow.Term.default_le_formalsDepth hd 0 hx).2
    (Nat.succ_le_succ (Flow.Term.le_linesDepth p.body _))

/-- How many bodies nest in something that is met, its own counted. -/
def Visit.depth : Visit → Nat
  | .thunk d => Body.depth d.body + 1
  | .closure _ p => p.depth
  | .site _ => 0

mutual

/-- What is met in an operand is not deeper than the operand. -/
lemma Flow.Term.depth_visits : ∀ (t : Term) (acc : Nat), ∀ v ∈ t.visits, v.depth ≤ t.depth acc
  | .int _, _, _, hv | .literal _, _, _, hv | .temp _, _, _, hv | .local .., _, _, hv
  | .env _, _, _, hv | .ellipsis, _, _, hv => by cases hv
  | .element vector index, acc, v, hv => by
    rcases List.mem_append.1 hv with hv | hv
    · exact Nat.le_trans (vector.depth_visits acc v hv) (index.le_depth _)
    · exact index.depth_visits _ v hv
  | .length t, acc, v, hv => t.depth_visits acc v hv
  | .increment t, acc, v, hv => t.depth_visits acc v hv
  | .atLeast left right, acc, v, hv => by
    rcases List.mem_append.1 hv with hv | hv
    · exact Nat.le_trans (left.depth_visits acc v hv) (right.le_depth _)
    · exact right.depth_visits _ v hv
  | .closure _ ⟨_, _, _⟩, _, v, hv => by
    obtain rfl := List.mem_singleton.1 hv
    exact Nat.le_max_right ..
  | .thunk ⟨node, source, body⟩, _, v, hv => by
    unfold Flow.Term.visits Emits.lateVisits at hv
    split at hv
    · cases hv
    · obtain rfl := List.mem_singleton.1 hv
      exact Nat.le_max_right ..
  | .primitive _ ⟨_, args, _⟩, acc, v, hv => by
    rcases List.mem_cons.1 hv with rfl | hv
    · exact Nat.zero_le _
    · exact Flow.Term.depth_visitsOf args acc v hv
  | .call (.name _) ⟨_, args, _⟩, acc, v, hv => by
    simp only [Flow.Term.visits, List.mem_cons, List.mem_append] at hv
    rcases hv with rfl | rfl | hv | rfl | hv
    · exact Nat.zero_le _
    · exact Nat.zero_le _
    · exact Flow.Term.depth_visitsOf args acc v hv
    · exact Nat.zero_le _
    · exact Flow.Term.depth_visitsOf args acc v hv
  | .call (.computed t) ⟨_, args, _⟩, acc, v, hv => by
    simp only [Flow.Term.visits, List.mem_cons, List.mem_append] at hv
    rcases hv with hv | rfl | rfl | rfl | hv | rfl | hv
    · exact Nat.le_trans (t.depth_visits acc v hv) (Flow.Term.le_depths args _)
    · exact Nat.zero_le _
    · exact Nat.zero_le _
    · exact Nat.zero_le _
    · exact Flow.Term.depth_visitsOf args _ v hv
    · exact Nat.zero_le _
    · exact Flow.Term.depth_visitsOf args _ v hv

lemma Flow.Term.depth_visitsOf : ∀ (ts : List Term) (acc : Nat),
    ∀ v ∈ Flow.Term.visitsOf ts, v.depth ≤ Flow.Term.depths acc ts
  | [], _, _, hv => by cases hv
  | t :: ts, acc, v, hv => by
    rcases List.mem_append.1 hv with hv | hv
    · exact Nat.le_trans (t.depth_visits acc v hv) (Flow.Term.le_depths ts _)
    · exact Flow.Term.depth_visitsOf ts _ v hv

end

/-- The visits of a statement are those of its operand. -/
lemma Flow.Statement.visits_eq (s : Flow.Statement Term) :
    s.visits = (s.operand?.map Flow.Term.visits).getD [] := by
  cases s <;> rfl

/-- What is met in a body is less deep than the body. -/
lemma Flow.Body.depth_meets {b : Body} {v : Visit} (hv : v ∈ b.meets) : v.depth ≤ b.depth := by
  have hlines : ∀ (b : Body) (acc : Nat), ∀ v ∈ b.meets, v.depth ≤ Flow.Term.linesDepth acc b := by
    intro b
    induction b with
    | nil => exact nofun
    | cons line b ih =>
      intro acc v hv
      rw [Flow.Term.linesDepth_cons]
      cases line with
      | label l => exact ih acc v hv
      | statement s =>
        rw [meets_statement, Flow.Statement.visits_eq] at hv
        dsimp only
        cases hs : s.operand? with
        | none =>
          rw [hs] at hv
          exact ih acc v hv
        | some t =>
          rw [hs] at hv
          rcases List.mem_append.1 hv with hv | hv
          · exact Nat.le_trans (t.depth_visits acc v hv) (Flow.Term.le_linesDepth b _)
          · exact ih _ v hv
  exact hlines b 0 v hv

/-! ## Statements of a graph -/

namespace Flow.Graph

/-- All statements in blocks, the open one included, have a property. -/
def Building.All (P : Flow.Statement Term → Prop) (g : Building) : Prop :=
  (∀ b ∈ g.blocks, ∀ s ∈ b.statements, P s) ∧ ∀ o, g.current = some o → ∀ s ∈ o.statements, P s

/-- Taking a line adds its statement or a jump. -/
lemma Building.all_line {P : Flow.Statement Term → Prop} (hgoto : ∀ l, P (.goto l)) {g : Building}
    (h : g.All P) {line : Flow.Line Term} (hline : ∀ s, line = .statement s → P s) :
    (g.line line).All P := by
  obtain ⟨hblocks, hopen⟩ := h
  have hclose : ∀ (o : Open) (last : Flow.Statement Term), (∀ s ∈ o.statements, P s) → P last →
      ∀ b ∈ o.close last :: g.blocks, ∀ s ∈ b.statements, P s := by
    intro o last ho hlast b hb s hs
    rcases List.mem_cons.1 hb with rfl | hb
    · rcases List.mem_cons.1 (List.mem_reverse.1 hs) with rfl | hs
      · exact hlast
      · exact ho s hs
    · exact hblocks b hb s hs
  cases hg : g.current with
  | none =>
    cases line with
    | label l =>
      simp only [Building.line, hg]
      exact ⟨hblocks, by simp⟩
    | statement s =>
      simp only [Building.line, hg]
      exact ⟨hblocks, by simp⟩
  | some o =>
    have ho := hopen o hg
    cases line with
    | label l =>
      simp only [Building.line, hg]
      split
      · exact ⟨hblocks, by simpa using ho⟩
      · exact ⟨hclose o _ ho (hgoto l), by simp⟩
    | statement s =>
      have hs := hline s rfl
      simp only [Building.line, hg]
      split
      · exact ⟨hclose o s ho hs, by simp⟩
      · exact ⟨hblocks, by simpa using ⟨hs, ho⟩⟩

/-- What holds of the statements of a body, and of those that may be added to end a block, holds of all
statements of its graph. -/
lemma forall_statements {P : Flow.Statement Term → Prop} {b : Body} (hgoto : ∀ l, P (.goto l))
    (hret : P (.ret .null)) (hb : ∀ s ∈ b.statements, P s) :
    ∀ s ∈ (ofBody b).flatMap Block.statements, P s := by
  have hfold : ∀ (lines : Body) (g : Building), (∀ s ∈ lines.statements, P s) → g.All P →
      (lines.foldl Building.line g).All P := by
    intro lines
    induction lines with
    | nil => exact fun g _ hg => hg
    | cons line lines ih =>
      intro g hlines hg
      refine ih _ (fun s hs => hlines s ?_)
        (Building.all_line hgoto hg fun s hs => hlines s ?_)
      · cases line with
        | label l => exact hs
        | statement st => exact List.mem_cons_of_mem st hs
      · subst hs
        exact List.mem_cons_self
  obtain ⟨hblocks, hopen⟩ := hfold b .start hb (by simp [Building.start, Building.All])
  intro s h
  obtain ⟨block, hblock, hs⟩ := List.mem_flatMap.1 h
  unfold ofBody Building.finish at hblock
  split at hblock
  · rename_i o ho
    rcases List.mem_cons.1 (List.mem_reverse.1 hblock) with rfl | hblock
    · rcases List.mem_cons.1 (List.mem_reverse.1 hs) with rfl | hs
      · exact hret
      · exact hopen o ho s hs
    · exact hblocks block hblock s hs
  · exact hblocks block (List.mem_reverse.1 hblock) s hs

/-- A statement of the graph of a body is one of the body, or was added to end a block. -/
lemma mem_statements {b : Body} {s : Flow.Statement Term}
    (h : s ∈ (ofBody b).flatMap Block.statements) : s ∈ b.statements ∨ s.visits = [] :=
  forall_statements (P := fun s => s ∈ b.statements ∨ s.visits = []) (fun _ => .inr rfl) (.inr rfl)
    (fun _ hs => .inl hs) s h

end Flow.Graph

/-- What the code of a body meets is met in its lines. -/
lemma Flow.Body.mem_meets {b : Body} {v : Visit} (hv : v ∈ b.visits) : v ∈ b.meets := by
  obtain ⟨s, hs, hv⟩ := List.mem_flatMap.1 hv
  rcases Graph.mem_statements hs with hs | hs
  · exact List.mem_flatMap.2 ⟨s, hs, hv⟩
  · rw [hs] at hv
    cases hv

/-- What the code of a body meets is less deep than the body. -/
lemma Flow.Body.depth_visits {b : Body} {v : Visit} (hv : v ∈ b.visits) : v.depth ≤ b.depth :=
  depth_meets (mem_meets hv)

/-! ## What has been noted -/

namespace Notes

/-- The noted things. -/
def visits (ds : Notes) : List Visit :=
  ds.thunks.map .thunk ++ ds.closures.map (fun c => .closure c.1 c.2) ++ ds.sites.map .site

lemma mem_visits {ds : Notes} {v : Visit} : v ∈ ds.visits ↔
    (∃ d ∈ ds.thunks, Visit.thunk d = v) ∨ (∃ c ∈ ds.closures, Visit.closure c.1 c.2 = v) ∨
      ∃ c ∈ ds.sites, Visit.site c = v := by
  simp [visits]

/-- What is noted was noted before or is new. -/
lemma mem_of_mem_add {ds : Notes} {v w : Visit} (h : w ∈ (ds.add v).visits) :
    w ∈ ds.visits ∨ w = v := by
  cases v <;> simp only [add] at h <;> split at h
  all_goals first
    | exact .inl h
    | (simp only [visits, List.map_append, List.mem_append, List.map_cons, List.map_nil,
        List.mem_singleton] at h ⊢
       tauto)

/-- Nothing else is noted. -/
lemma mem_of_mem_addAll {v : Visit} : ∀ (vs : List Visit) (ds : Notes),
    v ∈ (ds.addAll vs).visits → v ∈ ds.visits ∨ v ∈ vs
  | [], _, h => .inl h
  | w :: vs, ds, h => by
    rcases mem_of_mem_addAll vs (ds.add w) h with h | h
    · exact (mem_of_mem_add h).imp_right fun h => List.mem_cons.2 (.inl h)
    · exact .inr (List.mem_cons_of_mem w h)

@[simp] lemma thunk_mem_visits {ds : Notes} {d : Thunk} : .thunk d ∈ ds.visits ↔ d ∈ ds.thunks := by
  simp [visits]

@[simp] lemma closure_mem_visits {ds : Notes} {node : NodeId} {p : Procedure Term} :
    .closure node p ∈ ds.visits ↔ (node, p) ∈ ds.closures := by
  simp [visits]

@[simp] lemma site_mem_visits {ds : Notes} {c : Flow.CallSite} :
    .site c ∈ ds.visits ↔ c ∈ ds.sites := by
  simp [visits]

/-- Each identity is noted once. -/
structure Distinct (ds : Notes) : Prop where
  thunks : (ds.thunks.map Flow.Deferred.node).Nodup
  closures : (ds.closures.map Prod.fst).Nodup
  sites : (ds.sites.map Flow.CallSite.id).Nodup

/-- An identity that is not there yet may be added. -/
lemma nodup_concat {β κ : Type} [DecidableEq κ] {key : β → κ} {ds : List β} {d : β}
    (h : (ds.map key).Nodup) (hd : ¬ ds.any (fun e => key e = key d) = true) :
    ((ds ++ [d]).map key).Nodup := by
  rw [List.map_append, List.map_singleton]
  refine h.append (List.nodup_singleton _) fun k hk hd' => hd ?_
  obtain ⟨e, he, rfl⟩ := List.mem_map.1 hk
  exact List.any_eq_true.2 ⟨e, he, decide_eq_true (List.mem_singleton.1 hd')⟩

lemma Distinct.add {ds : Notes} (h : ds.Distinct) (v : Visit) : (ds.add v).Distinct := by
  cases v with
  | thunk d =>
    simp only [Notes.add]
    split
    · exact h
    · exact ⟨nodup_concat h.thunks ‹_›, h.closures, h.sites⟩
  | closure node p =>
    simp only [Notes.add]
    split
    · exact h
    · exact ⟨h.thunks, nodup_concat h.closures ‹_›, h.sites⟩
  | site c =>
    simp only [Notes.add]
    split
    · exact h
    · exact ⟨h.thunks, h.closures, nodup_concat h.sites ‹_›⟩

lemma distinct_addAll (vs : List Visit) : (addAll {} vs).Distinct := by
  have hfold : ∀ (vs : List Visit) (ds : Notes), ds.Distinct → (ds.addAll vs).Distinct := by
    intro vs
    induction vs with
    | nil => exact fun ds h => h
    | cons v vs ih => exact fun ds h => ih _ (h.add v)
  exact hfold vs {} ⟨by simp, by simp, by simp⟩

end Notes

end CallByNeed
