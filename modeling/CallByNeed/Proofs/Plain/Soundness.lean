import CallByNeed.Proofs.Plain.Program
import CallByNeed.Proofs.Source.Execution
import CallByNeed.Proofs.Source.Obedience

/-!
# Compiled code has no defects

No evaluation of a program run stops for a defect in code, and no instruction of its units does
(`Compiling.program_sound`): none takes a word off the stack that is not there or is of another kind,
reads a slot that nothing was stored in, or is handed an index outside its table, and no unit runs past
its last instruction.

A meaning has no defect of its own (`Means.directs`), and a unit comes to what its expression means. So
a task meets a defect only if one that it asks for does; by induction on how deeply these nest, none
does (`perform_sound`).
-/

namespace CallByNeed

variable {options : RuntimeOptions} {limit n : Nat} {s₀ s t : Store} {τ : Task} {α : Type}

/-! ## Evaluations without defects -/

/-- The evaluation does not stop for a defect in code. -/
def Sound (r : Result α) : Prop := ∀ h t, r = .error h t → ¬ h.IsInternal

/-- What counts as the same stops for a defect only if the other does. -/
lemma Alike.sound {r r' : Result α} (h : Alike r r') (hr : Sound r') : Sound r := by
  rintro e t rfl hi
  cases h with
  | @error _ e' hee _ journal =>
    refine hr e' _ rfl ?_
    obtain rfl | ⟨-, hi'⟩ := hee
    exacts [hi, hi']

/-- An evaluation that uses up its bound has not met a defect. -/
lemma Exhausts.sound {r : Result α} (h : Exhausts r) : Sound r := by
  obtain ⟨s, rfl⟩ := h
  rintro e t heq
  cases heq
  exact id

/-- The law that no defect is met. -/
def Law.sound (limit : Nat) : Law limit where
  done _ _ := True
  failed h _ _ := ¬ h.IsInternal
  refl _ := trivial
  trans _ _ := trivial
  stop _ _ _ h := h
  after _ h := h
  set _ _ _ _ := trivial
  addChild _ _ := trivial
  addPromise _ _ := trivial
  note _ _ := trivial
  left _ := trivial
  broken h := h
  forced _ _ := trivial
  restored _ h := h

/-- What obeys the law meets no defect. -/
lemma Law.Governs.sound {act : Eval α} (h : (Law.sound limit).Governs act) (s : Store) :
    Sound (act s) := by
  intro e t he
  have hr := h s trivial
  rw [he] at hr
  cases hr with
  | error hf => exact hf

/-! ## Nested evaluations -/

open Classical in
/-- The host that does what another one does, and breaks off where that one meets a defect. -/
noncomputable def Host.guarded (host : Host) : Host := fun τ s =>
  if Sound (host τ s) then host τ s else .error .abort s

/-- The guarded host meets no defect. -/
lemma Host.governs_guarded (host : Host) (τ : Task) : (Law.sound limit).Governs (host.guarded τ) := by
  intro s _
  unfold Host.guarded
  split
  · rename_i hsound
    cases h : host τ s with
    | ok v t => exact .ok trivial
    | error e t => exact .error (hsound e t h)
  · exact .error id

/-- A proper task meets no defect if none is met by what it asks for. -/
theorem perform_sound_of_nested {host : Host} (hs : ∃ fs, s₀.Reached fs s) (hτ : τ.Proper s)
    {b : Nat} (hhost : host = answer options b)
    (hall : ∀ τ' s', (∃ fs, s₀.Reached fs s') → τ'.Proper s' → Sound (host τ' s')) (steps : Nat) :
    Sound (perform options host steps τ s) := by
  subst hhost
  have hguarded : ∀ o : RuntimeOptions, o.maxDepth = options.maxDepth →
      perform o (answer options b).guarded steps τ s = perform o (answer options b) steps τ s := by
    intro o ho
    have hconducts : Conducts (.orderly options.maxDepth s₀ (τ.rank options.maxDepth s)) s
        (fun H => perform o H steps τ) Value.PlainIn := ho ▸ .perform hs hτ
    refine hconducts.congr (answer_kept options b s₀ _) fun τ' s' hmay => ?_
    exact if_pos (hall τ' s' hmay.1 hmay.2.1)
  have hlaw : ∀ τ, (Law.sound options.maxDepth).Governs ((answer options b).guarded τ) :=
    (answer options b).governs_guarded
  cases τ with
  | force p =>
    rw [← hguarded options rfl]
    exact ((Law.forcePromise p).governs hlaw).sound s
  | eval env e =>
    rw [← hguarded options rfl]
    exact ((Law.eval env e).governs hlaw).sound s
  | execute u env =>
    obtain ⟨o, e, h⟩ := hτ.1
    obtain ⟨M, hM, hfollows⟩ := h.executes options.maxDepth env
    obtain ⟨B, hB⟩ := h.handsOn
    -- Tracing is no matter, nor is the guard; and then the unit comes to what the expression means.
    refine (Machine.run_alike options (answer_oblivious options b) hB.steps env steps s).sound ?_
    have hrun : Machine.run options.untraced (answer options b).guarded u env steps (.start u env) s
        = Machine.run options.untraced (answer options b) u env steps (.start u env) s :=
      hguarded options.untraced rfl
    rw [← hrun]
    have hmeaning : Sound (M (answer options b).guarded s) := (hM.directs.governs hlaw).sound s
    by_cases hex : Exhausts (M (answer options b).guarded s)
    · exact ((hfollows _ steps s).1 hex).sound
    · obtain ⟨k, hk, hlow⟩ := (hfollows (answer options b).guarded steps s).2 hex
      obtain hlt | hle := Nat.lt_or_ge steps k
      · exact (hlow steps hlt).sound
      · exact (hk steps hle).alike.sound hmeaning

/-- **No proper task meets a defect**: by induction on how deeply evaluations may nest. -/
theorem answer_sound (options : RuntimeOptions) : ∀ (n : Nat) {τ : Task} {s : Store},
    (∃ fs, s₀.Reached fs s) → τ.Proper s → Sound (answer options n τ s)
  | 0, _, _, _, _ => Exhausts.sound ⟨_, rfl⟩
  | n + 1, _, _, hs, hτ =>
    perform_sound_of_nested hs hτ rfl (fun _ _ hs' hτ' => answer_sound options n hs' hτ') n

/-- A proper task meets no defect in any number of steps. -/
theorem perform_sound (hs : ∃ fs, s₀.Reached fs s) (hτ : τ.Proper s) (steps : Nat) :
    Sound (perform options (answer options n) steps τ s) :=
  perform_sound_of_nested hs hτ rfl (fun _ _ hs' hτ' => answer_sound options n hs' hτ') steps

/-! ## Instructions -/

/-- A run that has enough steps gets to a machine that is visited. -/
lemma Machine.Visits.run {host : Host} {u : CodeUnit} {env : EnvId} {m : Machine}
    (h : Visits options host u env s m t) :
    ∃ k, ∀ n, Machine.run options host u env (n + k) (.start u env) s
      = Machine.run options host u env n m t := by
  induction h with
  | start => exact ⟨0, fun _ => rfl⟩
  | @on m m' t t' _ hm ih =>
    obtain ⟨k, hk⟩ := ih
    refine ⟨k + 1, fun n => ?_⟩
    rw [show n + (k + 1) = (n + 1) + k by omega, hk, run_eq_advance, Eval.bind_apply, hm]
    rfl

/-- No instruction meets a defect that a run executes if the runs of all lengths meet none. -/
lemma Machine.Visits.sound {host : Host} {u : CodeUnit} {env : EnvId} {m : Machine}
    (h : Visits options host u env s m t)
    (hall : ∀ n, Sound (Machine.run options host u env n (.start u env) s)) :
    Sound (advance options host u env m t) := by
  obtain ⟨k, hk⟩ := h.run
  intro e t' he
  refine hall (1 + k) e t' ?_
  rw [hk, run_eq_advance, Eval.bind_apply, he]

/-! ## Programs -/

/-- An evaluation meets no defect, and nor does any instruction that it executes. -/
structure Evaluation.Sound (options : RuntimeOptions) (n : Nat) (τ : Task) (s : Store) : Prop where
  result : CallByNeed.Sound (answer options n τ s)
  instruction : ∀ b u env, n = b + 1 → τ = .execute u env →
    ∀ m t, Machine.Visits options (answer options b) u env s m t →
      CallByNeed.Sound (Machine.advance options (answer options b) u env m t)

/-- The evaluation of a proper task meets no defect. -/
theorem Evaluation.sound (hs : ∃ fs, s₀.Reached fs s) (hτ : τ.Proper s) :
    Evaluation.Sound options n τ s where
  result := answer_sound options n hs hτ
  instruction b u env _ h _ _ hm := by
    subst h
    exact hm.sound fun steps => perform_sound hs hτ steps

/-- **Code that the compiler produces has no defects.** -/
theorem Compiling.program_sound {o : CompilerOptions} {p : Program} {c : CompiledProgram}
    {j k : Journal} (h : Compiling.program o .counting p j = .ok c k) (options : RuntimeOptions)
    (bound : Nat) (notes : Journal) :
    (∀ fault t, c.execute options bound (Store.freshWith notes)
        ≠ .error (.error (.internal fault)) t) ∧
      ∀ n τ s, Evaluations options bound (.execute c.main globalEnv) (c.opening notes) n τ s →
        Evaluation.Sound options n τ s := by
  obtain ⟨hopening, hbody⟩ := program_opens h notes
  refine ⟨fun fault t hr => ?_, fun n τ s hτ => ?_⟩
  · rw [c.execute_eq] at hr
    exact answer_sound options bound hopening hbody _ t hr trivial
  · obtain ⟨hs, hproper⟩ := hτ.proper hopening hbody
    exact Evaluation.sound hs hproper

/-- A loop over a vector whose body calls a function with a promise. -/
theorem Compiling.program_sound_loop :
    let p : Program := ⟨[⟨⟨"f"⟩, [⟨⟨"x"⟩, none⟩], .symbol ⟨"x"⟩⟩],
      .call (.symbol ⟨"for"⟩) [⟨none, .symbol ⟨"i"⟩⟩,
        ⟨none, .call (.symbol ⟨"list"⟩) [⟨none, .int 1⟩]⟩,
        ⟨none, .call (.symbol ⟨"f"⟩) [⟨none, .call (.symbol ⟨"list"⟩) [⟨none, .symbol ⟨"i"⟩⟩]⟩]⟩]⟩
    ∃ c k, Compiling.program {} .counting p #[] = .ok c k ∧
      (∀ fault t, c.execute {} 9 (Store.freshWith #[]) ≠ .error (.error (.internal fault)) t) ∧
      Evaluation.Sound {} 9 (.execute c.main globalEnv) (c.opening #[]) := by
  intro p
  obtain ⟨c, k, h⟩ := exists_of_accepts (o := {}) (p := p) (by decide +kernel)
  obtain ⟨hexecute, hall⟩ := program_sound h {} 9 #[]
  exact ⟨c, k, h, hexecute, hall _ _ _ .main⟩

end CallByNeed
