import CallByNeed.Proofs.Code.Supplies
import CallByNeed.Proofs.Plain.Program
import CallByNeed.Proofs.Source.Execution
import CallByNeed.Proofs.Source.Obedience

/-!
# Every run ends

Every program run ends (`Program.run_ends`): its evaluation uses up no bound that is large enough, and
from then on it has the same outcome under all bounds.

An evaluation ends if all those end that it asks its host for (`Finishes.of_conducts`); a unit does
because executing it comes to what its expression means, and a meaning has no bound. What it asks for
is of a smaller rank, and ranks are well-founded: so every proper task ends (`finishes`).
-/

namespace CallByNeed

variable {options : RuntimeOptions} {limit : Nat} {s₀ s : Store} {τ : Task}

/-! ## Evaluations that end -/

/-- Some bound is not used up by the evaluation. -/
def Finishes (options : RuntimeOptions) (τ : Task) (s : Store) : Prop :=
  ∃ b, ¬ Exhausts (answer options b τ s)

/-- What is evaluated under some bound is the same under all large ones, but for the journal. -/
lemma settles_of_answer {b : Nat} (hb : ¬ Exhausts (answer options b τ s)) :
    ∃ r, Alike (answer options b τ s) r ∧ Settles (fun b => answer options b τ) s r := by
  have htask : TaskRel (.plain True) 0 τ τ := by
    cases τ with
    | force p => exact .force p
    | eval env e => exact @TaskRel.code _ _ (.expr e) (.expr e) env rfl nofun
    | execute u env => exact .execute rfl nofun
  have hm := answer_plain True options b _ (.inl ⟨trivial, .id⟩) _ _ _ htask s s
    (.refl World.reflexive_plain s) (Nat.zero_le _)
  cases hm with
  | @excused e t hr hh =>
    cases e with
    | error e => exact (hh.elim And.left id).elim
    | abort => exact hh.elim
    | exhausted => exact absurd ⟨t, hr⟩ hb
  | dropped hB he => exact he.elim
  | same hB hr => exact ⟨_, hr.alike, hB⟩

/-- What ends comes to the same under all large bounds. -/
lemma Finishes.settles (h : Finishes options τ s) :
    ∃ r, ¬ Exhausts r ∧ Settles (fun b => answer options b τ) s r := by
  obtain ⟨b, hb⟩ := h
  obtain ⟨r, hr, hB⟩ := settles_of_answer hb
  exact ⟨r, fun hex => hb (hr.symm.exhausts hex), hB⟩

/-- The law that no bound is used up. -/
def Law.lasting (limit : Nat) : Law limit where
  done _ _ := True
  failed h _ _ := h ≠ .exhausted
  refl _ := trivial
  trans _ _ := trivial
  stop _ _ h _ := h
  after _ h := h
  set _ _ _ _ := trivial
  addChild _ _ := trivial
  addPromise _ _ := trivial
  note _ _ := trivial
  left _ := trivial
  broken h := h
  forced _ _ := trivial
  restored _ h := h

/-- What obeys the law ends. -/
lemma Law.Governs.not_exhausts {α : Type} {act : Eval α} (h : (Law.lasting limit).Governs act)
    (s : Store) : ¬ Exhausts (act s) := by
  rintro ⟨t, ht⟩
  have hr := h s trivial
  rw [ht] at hr
  cases hr with
  | error hh => exact hh rfl

open Classical in
/-- The host that gives what the evaluations come to under large bounds, and breaks off those that do
not end. -/
noncomputable def lastingHost (options : RuntimeOptions) : Host := fun τ s =>
  if h : Finishes options τ s then h.settles.choose else .error .abort s

lemma lastingHost_settles (h : Finishes options τ s) :
    Settles (fun b => answer options b τ) s (lastingHost options τ s) := by
  unfold lastingHost
  rw [dif_pos h]
  exact h.settles.choose_spec.2

lemma lastingHost_lasting (options : RuntimeOptions) (τ : Task) :
    (Law.lasting limit).Governs (lastingHost options τ) := by
  intro s _
  have hr : ¬ Exhausts (lastingHost options τ s) := by
    unfold lastingHost
    split
    · rename_i h
      exact h.settles.choose_spec.1
    · rintro ⟨_, ⟨⟩⟩
  cases h : lastingHost options τ s with
  | ok v t => exact .ok trivial
  | error e t =>
    refine .error ?_
    rintro rfl
    exact hr ⟨t, h⟩

/-! ## Nested evaluations -/

section

variable [Inherited] {C : Contract} {Q : Value → Store → Prop} {act : Host → Eval Value}

/-- All that the contract allows ends. -/
def Contract.Finishing (options : RuntimeOptions) (C : Contract) : Prop :=
  ∀ τ s, C.may τ s → Finishes options τ s

/-- The host that gives what evaluations come to keeps the contract. -/
lemma Contract.Finishing.kept {r : Rank}
    (h : (Contract.orderly options.maxDepth s₀ r).Finishing options) :
    (Contract.orderly options.maxDepth s₀ r).Kept (lastingHost options) := by
  intro τ s hmay
  obtain ⟨b, hb⟩ := lastingHost_settles (h τ s hmay)
  rw [← hb b (Nat.le_refl b)]
  exact answer_kept options b s₀ r τ s hmay

/-- An evaluation has the same result on hosts with large bounds as on the one that gives what they
come to. -/
lemma Conducts.settles {r : Rank} (h : Conducts (.orderly options.maxDepth s₀ r) s act Q)
    (hall : (Contract.orderly options.maxDepth s₀ r).Finishing options) :
    Settles (fun b => act (answer options b)) s (act (lastingHost options) s) :=
  Inquiry.settles h hall.kept fun _ _ hmay => lastingHost_settles (hall _ _ hmay)

/-- An evaluation that has no bound of its own ends if all ends that it asks for. -/
lemma Conducts.finishes {r : Rank} (h : Conducts (.orderly options.maxDepth s₀ r) s act Q)
    (hall : (Contract.orderly options.maxDepth s₀ r).Finishing options)
    (hact : (Law.lasting options.maxDepth).Directs act) :
    ∃ N, ∀ b, N ≤ b → ¬ Exhausts (act (answer options b) s) := by
  obtain ⟨N, hN⟩ := h.settles hall
  refine ⟨N, fun b hb => ?_⟩
  have hsettled : act (answer options b) s = _ := hN b hb
  rw [hsettled]
  exact (hact.governs (lastingHost_lasting options)).not_exhausts s

end

/-! ## Tasks -/

section

variable [Inherited]

/-- Executing a compiled unit ends if all ends that it asks for. -/
lemma CodeUnit.Compiled.finishes {u : CodeUnit} {env : EnvId} (hu : u.Compiled)
    (hs : ∃ fs, s₀.Reached fs s) (henv : env < s.environments.size)
    (hall : (Contract.orderly options.maxDepth s₀
      ((Task.execute u env).rank options.maxDepth s)).Finishing options) :
    Finishes options (.execute u env) s := by
  obtain ⟨o, e, h⟩ := hu
  obtain ⟨M, hM, hfollows⟩ := h.executes options.maxDepth env
  obtain ⟨B, hB⟩ := h.handsOn
  -- On the host that gives what evaluations come to, the meaning ends, and the unit with it.
  have hmeaning : ¬ Exhausts (M (lastingHost options) s) :=
    (hM.directs.governs (lastingHost_lasting options)).not_exhausts s
  obtain ⟨k, hk, -⟩ := (hfollows (lastingHost options) 0 s).2 hmeaning
  have hrun : ¬ Exhausts (Machine.run options.untraced (lastingHost options) u env k (.start u env) s) :=
    fun hex => hmeaning ((hk k (Nat.le_refl k)).symm.exhausts hex)
  -- So it does under large bounds; tracing makes no difference.
  have hproper : (Task.execute u env).Proper s := ⟨⟨o, e, h⟩, henv⟩
  have hconducts : Conducts (.orderly options.maxDepth s₀ ((Task.execute u env).rank options.maxDepth s))
      s (fun H => perform options.untraced H k (.execute u env)) Value.PlainIn :=
    @Conducts.perform s₀ s _ options.untraced k _ hs hproper
  obtain ⟨N, hN⟩ := hconducts.settles hall
  have hsettled : Machine.run options.untraced (answer options N) u env k (.start u env) s
      = Machine.run options.untraced (lastingHost options) u env k (.start u env) s :=
    hN N (Nat.le_refl N)
  rw [← hsettled] at hrun
  obtain ⟨r, ⟨m, hm⟩, halike⟩ := Machine.run_settles options .id hB.steps env N k s hrun
  refine ⟨m + 1, fun hex => hrun (halike.symm.exhausts ?_)⟩
  have hperformed : answer options (m + 1) (.execute u env) s = r := hm m (Nat.le_refl m)
  rwa [← hperformed]

/-- **Every proper task ends**: by induction on its rank. -/
theorem finishes (options : RuntimeOptions) (hs : ∃ fs, s₀.Reached fs s) (hτ : τ.Proper s) :
    Finishes options τ s := by
  generalize hr : τ.rank options.maxDepth s = r
  induction r using WellFoundedLT.induction generalizing τ s with
  | ind r ih =>
    subst hr
    have hall : (Contract.orderly options.maxDepth s₀ (τ.rank options.maxDepth s)).Finishing options :=
      fun τ' s' hmay => ih _ hmay.2.2 hmay.1 hmay.2.1 rfl
    cases τ with
    | force p =>
      obtain ⟨N, hN⟩ := (Conducts.forcePromise hs).finishes hall (Law.forcePromise p)
      exact ⟨N + 1, hN N (Nat.le_refl N)⟩
    | eval env e =>
      obtain ⟨N, hN⟩ := (Conducts.eval hs hτ).finishes hall (Law.eval env e)
      exact ⟨N + 1, hN N (Nat.le_refl N)⟩
    | execute u env => exact hτ.1.finishes hs hτ.2 hall

end

/-! ## Programs -/

/-- The body of a compiled program ends. -/
lemma Compiling.program_finishes {o : CompilerOptions} {p : Program} {c : CompiledProgram}
    {j k : Journal} (h : Compiling.program o .counting p j = .ok c k) (options : RuntimeOptions)
    (notes : Journal) : Finishes options (.execute c.main globalEnv) (c.opening notes) :=
  finishes options (program_opens h notes).1 (program_opens h notes).2

/-- **Every program run ends.** Compiling gets to the bottom of the bodies that nest in one another:
it would do the same if more of them could nest. And all runs with large bounds have the same outcome,
which is not that a bound is used up. -/
theorem Program.run_ends (p : Program) (config : Config) :
    (∀ e b, DraftedBody config.compiler e b → ∀ depth, b.depth < depth → ∀ name,
      Compiling.unitWithin config.compiler depth name b = Compiling.unit config.compiler name b) ∧
    ∃ N outcome, outcome.result ≠ .error .exhausted ∧
      ∀ bound, N ≤ bound → p.run config bound = outcome := by
  refine ⟨?_, ?_⟩
  · rintro e b ⟨lo, hi, t, lines, hdrafted, rfl⟩ depth hdepth name
    exact Compiling.unitWithin_eq_unit _ (Flow.tidy_of_drafted hdrafted).returning hdepth name
  · cases hc : Compiling.program config.compiler .counting p #[] with
    | error e journal =>
      have hrun : ∀ bound, p.run config bound = ⟨.error (.compile e), { Store.fresh with journal }⟩ :=
        fun bound => by rw [Program.run, hc]
      refine ⟨0, _, fun hresult => ?_, fun bound _ => hrun bound⟩
      cases hresult
    | ok c journal =>
      obtain ⟨r, hr, N, hN⟩ := (Compiling.program_finishes hc config.runtime
        (journal.push ⟨.info, s!"running {c.main.fingerprint} ({c.definitions.length} definitions)"⟩)).settles
      have hexecute : ∀ bound, N ≤ bound → c.execute config.runtime bound
          ({ Store.fresh with journal }.log .info
            s!"running {c.main.fingerprint} ({c.definitions.length} definitions)") = r :=
        fun bound hbound => (c.execute_eq config.runtime bound _).trans (hN bound hbound)
      refine ⟨N, p.run config N, ?_, fun bound hbound => ?_⟩
      · rw [Program.run, hc]
        dsimp only
        rw [hexecute N (Nat.le_refl N)]
        intro hresult
        cases r with
        | ok v t => cases hresult
        | error h t =>
          cases h with
          | error e => cases hresult
          | abort => cases hresult
          | exhausted => exact absurd ⟨t, rfl⟩ hr
      · rw [Program.run, Program.run, hc]
        dsimp only
        rw [hexecute bound hbound, hexecute N (Nat.le_refl N)]

/-- A value that a program comes to under some bound is what it comes to under all large ones. -/
lemma Program.run_settles {p : Program} {config : Config} {bound : Nat} {v : Value}
    (h : (p.run config bound).result = .ok v) :
    ∃ m, ∀ n ≥ m, (p.run config n).result = .ok v := by
  cases hc : Compiling.program config.compiler .counting p #[] with
  | error e k =>
    rw [Program.run, hc] at h
    cases h
  | ok c k =>
    obtain ⟨notes, hrun⟩ := run_of_compiled hc
    cases ha : answer config.runtime bound (.execute c.main globalEnv) (c.opening notes) with
    | error e t =>
      rw [(hrun bound).2 e t ha] at h
      cases h
    | ok w t =>
      obtain rfl : w = v := by
        rw [(hrun bound).1 w t ha] at h
        exact Except.ok.inj h
      have hended : ¬ Exhausts (answer config.runtime bound (.execute c.main globalEnv)
          (c.opening notes)) := by
        rw [ha]
        rintro ⟨_, ⟨⟩⟩
      obtain ⟨r, hr, m, hm⟩ := settles_of_answer hended
      rw [ha] at hr
      cases hr with
      | ok _ _ journal => exact ⟨m, fun n hn => by rw [(hrun n).1 _ _ (hm n hn)]⟩

end CallByNeed
