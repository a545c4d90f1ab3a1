import CallByNeed.Code.OfProgram
import CallByNeed.Proofs.Code.TwinBodies
import CallByNeed.Proofs.Flow.Depth

/-!
# Programs under other identities

The bodies of a program may be drafted one after the other or side by side, with identities taken
from counters they share. Whatever the order, a body never gets one identity twice. That is all it
takes: under any such identities a program is turned into the same code, with the same reports, or
is refused with the same error, and the errors that are no fault of the source never occur.
-/

namespace CallByNeed

open Flow (IdSource)

namespace Compiling

variable {α β : Type} {o : CompilerOptions} {ids : IdSource}

/-! ## Steps that match -/

/-- Steps that match are the same step. -/
lemma Coincides.eq {c c' : Compiling α} (h : Coincides c c') : c = c' := by
  funext j
  rcases (h j).ends with ⟨x, k, k', hc, hc', hk⟩ | ⟨e, k, k', hc, hc', -, hk⟩
  · rw [hc, hc', show k' = k from hk]
  · rw [hc, hc', show k' = k from hk]

/-- A step that matches is refused for reasons of source only. -/
lemma Coincides.ofSource {c c' : Compiling α} (h : Coincides c c') : Coincides c' c' :=
  h.eq ▸ h

/-- How deeply bodies may nest makes no difference for a tidy body that is less deep. -/
lemma coincides_unitWithin_of_lt (hids : ids.Injective) (o : CompilerOptions) {depth depth' : Nat}
    {b : Flow.Body} (hb : b.Tidy) (h : b.depth < depth) (h' : b.depth < depth') (name : String) :
    Coincides (unitWithin o depth name b) (unitWithin o depth' name (b.rename ids)) := by
  induction depth generalizing b depth' name with
  | zero => exact absurd h (Nat.not_lt_zero _)
  | succ depth ih =>
    obtain ⟨depth', rfl⟩ := Nat.exists_eq_add_of_le' (Nat.zero_lt_of_lt h')
    refine coincides_unitWith hids hb (fun v hv => ?_) name
    have htidy := hb.sequenced.1.tidy v hv
    have hdepth : v.depth ≤ b.depth := by
      rw [Flow.Body.meets, Flow.Graph.statements_written] at hv
      exact Flow.Body.depth_visits hv
    have hless : ∀ {n : Nat}, n < v.depth → n < depth ∧ n < depth' := fun hn =>
      ⟨by omega, by omega⟩
    cases v with
    | thunk d =>
      obtain ⟨hn, hn'⟩ := hless (Nat.lt_succ_self (Flow.Body.depth d.body))
      exact fun name => ih htidy hn hn' name
    | closure node p =>
      obtain ⟨hn, hn'⟩ := hless p.depth_body
      refine ⟨fun name => ih htidy.body hn hn' name, fun f hf d hd name => ?_⟩
      obtain ⟨hn, hn'⟩ := hless (Flow.Procedure.depth_default hf hd)
      exact ih (htidy.defaults f hf d hd) hn hn' name
    | site c => trivial

/-- **Compiling a tidy body does not use up the bound on how deeply bodies may nest**: a larger bound
makes no difference. -/
theorem unitWithin_eq_unit (o : CompilerOptions) {b : Flow.Body} (hb : b.Tidy) {depth : Nat}
    (h : b.depth < depth) (name : String) : unitWithin o depth name b = unit o name b :=
  (coincides_unitWithin_of_lt Flow.IdSource.injective_counting o hb h (Nat.lt_succ_self _) name).eq.trans
    (coincides_unitWithin Flow.IdSource.injective_counting o _ hb name).eq.symm

/-- Drafts under other identities, and what becomes of them. -/
lemma Coincides.draft {step step' : Flow.Drafting α} {ρ : α → α} {f f' : α → Compiling β}
    (h : Flow.Renames ids {} ρ step step')
    (h' : ∀ x d, step {} = .ok (x, d) → Coincides (f x) (f' (ρ x))) :
    Coincides (Compiling.draft step >>= f) (Compiling.draft step' >>= f') := by
  intro j
  have hrun : ∀ (step : Flow.Drafting α) (f : α → Compiling β) {x d}, step {} = .ok (x, d) →
      (Compiling.draft step >>= f) j = f x j := by
    intro step f x d hstep
    show EStateM.bind (Compiling.draft step) f j = _
    unfold EStateM.bind Compiling.draft
    rw [hstep]
  have hfail : ∀ (step : Flow.Drafting α) (f : α → Compiling β) {e}, step {} = .error e →
      (Compiling.draft step >>= f) j = .error e j := by
    intro step f e hstep
    show EStateM.bind (Compiling.draft step) f j = _
    unfold EStateM.bind Compiling.draft
    rw [hstep]
  have hempty : Flow.Draft.rename ids {} = {} := by simp [Flow.Draft.rename]
  have hends := h {}
  rw [hempty] at hends
  rcases hends with ⟨x, d, hstep, hstep'⟩ | ⟨hstep, hstep'⟩
  · rw [hrun step f hstep, hrun step' f' hstep']
    exact h' x d hstep j
  · rw [hfail step f hstep, hfail step' f' hstep']
    exact .error trivial rfl

/-- An expression under other identities. -/
theorem coincides_expression (hids : ids.Injective) (o : CompilerOptions) (name : String) (e : Expr) :
    Coincides (expression o .counting name e) (expression o ids name e) := by
  refine .draft (Flow.Drafting.renames_bodyOf o ids {} e) fun b d hdraft => ?_
  obtain ⟨t, lines, rfl, hdrafted⟩ := Flow.Drafting.drafted_of_bodyOf hdraft
  exact coincides_unit hids o (Flow.tidy_of_drafted hdrafted).returning name

/-- A function literal under other identities. -/
theorem coincides_functionLiteral (hids : ids.Injective) (o : CompilerOptions)
    (shown : Option Symbol) (name : String) (f : Function) :
    Coincides (functionLiteral o .counting shown name f) (functionLiteral o ids shown name f) := by
  refine .draft (Flow.Drafting.renames_procedureOf o ids {} shown f) fun p d hdraft => ?_
  obtain ⟨mid, t, lines, hformals, hbody, hdrafted⟩ := Flow.Drafting.drafted_of_procedureOf hdraft
  refine coincides_function hids o ⟨?_, (Flow.tidy_of_draftedFormals hformals).2⟩ name
  rw [hbody]
  exact (Flow.tidy_of_drafted hdrafted).returning

/-- A definition under other identities. -/
theorem coincides_definition (hids : ids.Injective) (o : CompilerOptions) (d : Definition) :
    Coincides (definition o .counting d) (definition o ids d) :=
  (coincides_functionLiteral hids o _ _ _).bind fun _ => .pure _

/-! ## Programs -/

/-- All units of a program, the identities of each definition and those of the body coming from a
source of their own. -/
def programWith (o : CompilerOptions) (ids : Nat → IdSource) (p : Program) :
    Compiling CompiledProgram := do
  let definitions ← p.definitions.zipIdx.mapM fun d => definition o (ids d.2) d.1
  let main ← expression o (ids p.definitions.length) mainUnit p.body
  modify fun journal => journal.push ⟨.debug,
    s!"compiled program: {definitions.length} definitions, main {main.code.size} bytes"⟩
  return ⟨definitions, main⟩

/-- One source for all of them: every definition counts anew. -/
theorem programWith_const (o : CompilerOptions) (ids : IdSource) (p : Program) :
    programWith o (fun _ => ids) p = program o ids p := by
  have hdefinitions : ∀ (ds : List Definition) (n : Nat),
      ((ds.zipIdx n).mapM fun d => definition o ids d.1) = ds.mapM (definition o ids) := by
    intro ds
    induction ds with
    | nil => exact fun _ => rfl
    | cons d ds ih =>
      intro n
      rw [List.zipIdx_cons, List.mapM_cons, List.mapM_cons, ih]
  unfold programWith program
  rw [hdefinitions]

variable {ids ids' : Nat → IdSource}

/-- A program, under identities that are not repeated. -/
lemma coincides_programWith (o : CompilerOptions) (p : Program) (h : ∀ n, (ids n).Injective) :
    Coincides (programWith o (fun _ => .counting) p) (programWith o ids p) := by
  have hdefinitions : Coincides (p.definitions.zipIdx.mapM fun d => definition o .counting d.1)
      (p.definitions.zipIdx.mapM fun d => definition o (ids d.2) d.1) := by
    have hall : Coincides (p.definitions.zipIdx.mapM fun d => definition o .counting d.1)
        ((p.definitions.zipIdx.map id).mapM fun d => definition o (ids d.2) d.1) :=
      .mapM fun d _ => coincides_definition (h d.2) o d.1
    rwa [List.map_id] at hall
  exact hdefinitions.bind fun _ => (coincides_expression (h _) o _ _).bind fun _ => fun j => .ok rfl

/-- A program is turned into code, or is refused for reasons of its source. What compiles a program is
the case of one source for all its definitions, by `programWith_const`. -/
theorem programWith_ofSource (o : CompilerOptions) (p : Program) (h : ∀ n, (ids n).Injective)
    (j : Journal) :
    (∃ c j', programWith o ids p j = .ok c j') ∨
      ∃ e j', programWith o ids p j = .error e j' ∧ e.OfSource := by
  rcases ((coincides_programWith o p h).ofSource j).ends with
    ⟨c, j', _, hc, -, -⟩ | ⟨e, j', _, he, -, hsource, -⟩
  · exact .inl ⟨c, j', hc⟩
  · exact .inr ⟨e, j', he, hsource⟩

/-- A misplaced `...` is a reason of the source. -/
theorem programWith_ofSource_ellipsis :
    (∀ n, ((fun _ => .counting : Nat → IdSource) n).Injective) ∧
      ∃ e j', programWith {} (fun _ => .counting) ⟨[], .symbol ⟨"..."⟩⟩ #[] = .error e j' ∧
        e.OfSource := by
  refine ⟨fun _ => Flow.IdSource.injective_counting, ?_⟩
  rcases programWith_ofSource {} ⟨[], .symbol ⟨"..."⟩⟩ (fun _ => Flow.IdSource.injective_counting)
    #[] with ⟨c, j', h⟩ | h
  · cases h
  · exact h

end Compiling

end CallByNeed
