import CallByNeed.Proofs.Comparison.Together
import CallByNeed.Proofs.Plain.Program

/-!
# Hosts that watch what they are asked for

A host may look at the evaluations that it is asked for and break off those it does not approve of
(`watched`), and also those that come to a promise, which none does in practice. What is left of a run
may then be compared with another one for which less would be known. And a run all of whose evaluations
are approved of takes no notice of being watched (`Evaluations.watched_eq`).
-/

namespace CallByNeed

variable {o : RuntimeOptions} {fine : Task → Store → Prop} {b n : Nat} {s₀ m s : Store} {τ τ₀ : Task}

open Classical in
/-- The hosts that programs run on, breaking off evaluations that are not fine, and any that comes to
a promise. -/
noncomputable def watched (o : RuntimeOptions) (fine : Task → Store → Prop) : Nat → Host
  | 0 => fun _ => throw .exhausted
  | b + 1 => fun τ s =>
    if fine τ s ∧ ∀ p t, perform o (watched o fine b) b τ s ≠ .ok (.promise p) t then
      perform o (watched o fine b) b τ s
    else .error .exhausted s

lemma watched_of_fine (h : fine τ s)
    (hp : ∀ p t, perform o (watched o fine b) b τ s ≠ .ok (.promise p) t) :
    watched o fine (b + 1) τ s = perform o (watched o fine b) b τ s := if_pos ⟨h, hp⟩

/-- What is watched breaks off, or is fine and goes on. -/
lemma watched_cases (o : RuntimeOptions) (fine : Task → Store → Prop) (b : Nat) (τ : Task)
    (s : Store) :
    Exhausts (watched o fine b τ s) ∨ fine τ s ∧
      ∃ j, b = j + 1 ∧ watched o fine b τ s = perform o (watched o fine j) j τ s := by
  cases b with
  | zero => exact .inl ⟨s, rfl⟩
  | succ j =>
    by_cases h : fine τ s ∧ ∀ p t, perform o (watched o fine j) j τ s ≠ .ok (.promise p) t
    · exact .inr ⟨h.1, j, rfl, watched_of_fine h.1 h.2⟩
    · exact .inl ⟨s, if_neg h⟩

/-- No evaluation that is watched comes to a promise. -/
lemma watched_ne_promise (p : PromiseId) (t : Store) : watched o fine b τ s ≠ .ok (.promise p) t := by
  cases b with
  | zero => exact fun h => by cases h
  | succ j =>
    unfold watched
    split
    · rename_i h
      exact h.2 p t
    · exact fun h => by cases h

/-! ## The journal -/

/-- Performing a task does not depend on the journal either. -/
lemma Host.Oblivious.perform {H : Host} (hH : H.Oblivious) (o : RuntimeOptions) (b : Nat) {τ τ' : Task}
    (hτ : TaskRel (.plain False) n τ τ') :
    EvalRel (.plain False) n (ValueRel (.plain False)) (CallByNeed.perform o H b τ)
      fun _ => CallByNeed.perform o H b τ' := by
  cases hτ with
  | force p => exact forcePromise_rel World.lawful_plain hH p
  | @code c c' env hc henv =>
    obtain rfl : c = c' := hc
    cases c with
    | unit u =>
      exact Machine.run_rel World.reflexive_plain World.lawful_plain env rfl
        (.inl ⟨rfl, fun _ => trivial⟩) hH (.const id b) trivial (Machine.start_rel u env)
    | expr e =>
      exact Interpreter.eval_rel World.lawful_plain World.reflexive_plain.transparent hH e

lemma TaskRel.eq_of_plain {τ' : Task} (h : TaskRel (.plain False) n τ τ') : τ = τ' := by
  cases h with
  | force p => rfl
  | code hc => rw [show _ = _ from hc]

/-- Stores that are the same but for the journal give the same result but for the journal. -/
lemma Host.Oblivious.perform_result {H : Host} (hH : H.Oblivious) (o : RuntimeOptions) (b : Nat)
    {τ' : Task} {t : Store} (hτ : TaskRel (.plain False) n τ τ') (hst : StoreRel (.plain False) s t)
    (hn : n ≤ s.environments.size) :
    ResultRel (.plain False) (ValueRel (.plain False)) s t (CallByNeed.perform o H b τ s)
      (CallByNeed.perform o H b τ' t) := by
  have hm := hH.perform o b hτ s t hst hn
  revert hm
  generalize CallByNeed.perform o H b τ s = r
  intro hm
  cases hm with
  | @excused h _ hr hh =>
    cases h with
    | error e => exact (hh.elim And.left id).elim
    | _ => exact hh.elim
  | dropped _ he => exact he.elim
  | same hB hr =>
    obtain ⟨k, hk⟩ := hB
    obtain rfl := hk k (Nat.le_refl k)
    exact hr

/-- Hosts that watch do not look at the journal if what they watch for does not depend on it. -/
theorem watched_oblivious (hfine : ∀ τ s j, fine τ s → fine τ { s with journal := j }) :
    ∀ b, (watched o fine b).Oblivious
  | 0 => fun _ _ _ _ s t hst _ =>
    .same (.const _ t) (.error (.refl False.elim) hst (.refl s) (.refl t))
  | b + 1 => by
    intro n τ τ' hτ s t hst hn
    obtain rfl := hτ.eq_of_plain
    have hr := (watched_oblivious hfine b).perform_result o b hτ hst hn
    have hiff : fine τ s ↔ fine τ t := by
      rw [hst.eq_of_plain]
      exact ⟨hfine τ s t.journal, hfine τ { s with journal := t.journal } s.journal⟩
    refine .same (.const _ t) ?_
    unfold watched
    revert hr
    generalize perform o (watched o fine b) b τ s = r
    generalize perform o (watched o fine b) b τ t = r'
    intro hr
    have hpromise : (∀ p t, r ≠ .ok (.promise p) t) ↔ ∀ p t, r' ≠ .ok (.promise p) t := by
      cases hr with
      | error =>
        constructor <;> intro _ p t hp <;> cases hp
      | ok hv =>
        obtain rfl := hv.eq_of_plain
        constructor <;> intro h p t hp <;> cases hp <;> exact h _ _ rfl
    by_cases h : fine τ s ∧ ∀ p t, r ≠ .ok (.promise p) t
    · rw [if_pos h, if_pos ⟨hiff.1 h.1, hpromise.1 h.2⟩]
      exact hr
    · rw [if_neg h, if_neg fun h' => h ⟨hiff.2 h'.1, hpromise.2 h'.2⟩]
      exact .error (.refl False.elim) hst (.refl s) (.refl t)

/-- The hosts that watch, for all bounds. -/
noncomputable def HostFamily.watched (o : RuntimeOptions) (fine : Task → Store → Prop)
    (hfine : ∀ τ s j, fine τ s → fine τ { s with journal := j }) : HostFamily where
  options := o
  host := CallByNeed.watched o fine
  oblivious := watched_oblivious hfine
  performs b τ s := (watched_cases o fine b τ s).imp_right And.right

/-! ## Runs that are not broken off -/

/-- **An evaluation takes no notice of being watched** if all is fine that it consists of. -/
theorem Evaluations.watched_eq [Inherited] {bound : Nat} (hm : ∃ fs, s₀.Reached fs m)
    (hτ₀ : τ₀.Proper m)
    (hfine : ∀ n τ s, Evaluations o bound τ₀ m n τ s → fine τ s) :
    ∀ {n : Nat} {τ : Task} {s : Store}, Evaluations o bound τ₀ m n τ s →
      watched o fine n τ s = answer o n τ s
  | 0, _, _, _ => rfl
  | n + 1, τ, s, h => by
    obtain ⟨hs, hτ⟩ := h.proper hm hτ₀
    have hconducts : Conducts (.orderly o.maxDepth s₀ (τ.rank o.maxDepth s)) s
        (fun H => perform o H n τ) Value.PlainIn := .perform hs hτ
    have hperform : perform o (watched o fine n) n τ s = perform o (answer o n) n τ s :=
      hconducts.congr_of_consults (answer_kept o n s₀ _) fun τ' s' hask =>
        Evaluations.watched_eq hm hτ₀ hfine (.nested h hask)
    rw [watched_of_fine (hfine _ _ _ h), hperform]
    · rfl
    · intro p t hp
      have hyields : s.Yields Value.PlainIn (answer o (n + 1) τ s) := answer_yields o (n + 1) hs hτ
      rw [show answer o (n + 1) τ s = .ok (.promise p) t from hperform.symm.trans hp] at hyields
      cases hyields with
      | ok _ hv => exact hv

end CallByNeed
