import CallByNeed.Eval.Answer
import CallByNeed.Proofs.Comparison.Machine

/-!
# What evaluations ask of their host

An evaluation is a function of its host, but it consults the host only here and there, and goes on
with what it is told. A contract says which tasks may be asked for in which stores, and what is to be
expected of their results. An inquiry (`Inquiry`) follows an evaluation from one question to the next,
for all results that the contract lets expect.

So one inquiry shows what the result is on a host that keeps the contract (`Inquiry.holds`), that the
host's answers to other questions do not matter (`Inquiry.congr`), so that nothing else is asked
(`Inquiry.may_of_consults`), and that the result settles along hosts whose answers do
(`Inquiry.settles`). Every question that is asked matters, since the answer may be that an evaluation
stopped: so the answers on which the result depends determine it (`Inquiry.congr_of_consults`).
-/

namespace CallByNeed

/-- What an evaluation may ask for, and what it may expect. -/
structure Contract where
  may : Task → Store → Prop
  gives : Task → Store → Result Value → Prop

/-- The host's answers to the questions that are allowed are as expected. -/
def Contract.Kept (C : Contract) (H : Host) : Prop := ∀ τ s, C.may τ s → C.gives τ s (H τ s)

/-- What is done with a result stops for whatever the result stopped for, without asking anything. -/
def PassesOn {α β : Type} (next : Result α → Host → Result β) : Prop :=
  ∀ e t, ∃ t', ∀ H, next (.error e t) H = .error e t'

/-- What is done asks the host for nothing but what the contract allows, and its result is as `post`
says. When an answer is that an evaluation stopped, then what is done stops, too. -/
inductive Inquiry {α : Type} (C : Contract) (post : Result α → Prop) : (Host → Result α) → Prop
  | done {r : Result α} (h : post r) : Inquiry C post fun _ => r
  | ask {τ : Task} {s : Store} {next : Result Value → Host → Result α} (hmay : C.may τ s)
    (hstop : PassesOn next) (h : ∀ r, C.gives τ s r → Inquiry C post (next r)) :
    Inquiry C post fun H => next (H τ s) H

/-- What is done asks the host the question: it depends on the answer, all other answers being the
same. -/
def Consults {α : Type} (act : Host → Result α) (H : Host) (τ : Task) (s : Store) : Prop :=
  ∃ H' : Host, (∀ τ' s', ¬ (τ' = τ ∧ s' = s) → H' τ' s' = H τ' s') ∧ act H' ≠ act H

namespace Inquiry

variable {α β : Type} {C D : Contract} {post : Result α → Prop} {post' : Result β → Prop}
  {act : Host → Result α}

lemma of_eq {act' : Host → Result α} (h : Inquiry C post act) (heq : ∀ H, act' H = act H) :
    Inquiry C post act' := by
  rw [funext heq]
  exact h

/-- A single question. -/
lemma question {post : Result Value → Prop} {τ : Task} {s : Store} (hmay : C.may τ s)
    (h : ∀ r, C.gives τ s r → post r) : Inquiry C post fun H => H τ s :=
  @ask _ C post τ s (fun r _ => r) hmay (fun _ t => ⟨t, fun _ => rfl⟩) fun r hr => .done (h r hr)

/-- One evaluation after the other. -/
lemma andThen (h : Inquiry C post act) (next : Result α → Host → Result β) (hstop : PassesOn next)
    (h' : ∀ r, post r → Inquiry C post' (next r)) : Inquiry C post' fun H => next (act H) H := by
  induction h with
  | done hr => exact h' _ hr
  | @ask τ s k hmay hk _ ih =>
    refine .ask hmay (fun e t => ?_) ih
    obtain ⟨t', ht'⟩ := hk e t
    obtain ⟨t'', ht''⟩ := hstop e t'
    exact ⟨t'', fun H => by rw [ht', ht'']⟩

lemma mono {post' : Result α → Prop} (h : Inquiry C post act) (hpost : ∀ r, post r → post' r) :
    Inquiry C post' act :=
  h.andThen (fun r _ => r) (fun _ t => ⟨t, fun _ => rfl⟩) fun r hr => .done (hpost r hr)

/-! ## What follows -/

variable {H H' : Host}

/-- The result on a host that keeps the contract. -/
theorem holds (h : Inquiry C post act) (hH : C.Kept H) : post (act H) := by
  induction h with
  | done hr => exact hr
  | ask hmay _ _ ih => exact ih _ (hH _ _ hmay)

/-- Answers to questions that are not allowed do not matter. -/
theorem congr (h : Inquiry C post act) (hH : C.Kept H)
    (heq : ∀ τ s, C.may τ s → H' τ s = H τ s) : act H' = act H := by
  induction h with
  | done => rfl
  | ask hmay _ _ ih =>
    dsimp only
    rw [heq _ _ hmay]
    exact ih _ (hH _ _ hmay)

/-- What is asked is allowed. -/
theorem may_of_consults (h : Inquiry C post act) (hH : C.Kept H) {τ : Task} {s : Store}
    (hask : Consults act H τ s) : C.may τ s := by
  obtain ⟨H', heq, hne⟩ := hask
  by_contra hmay
  refine hne (h.congr hH fun τ' s' hmay' => heq τ' s' ?_)
  rintro ⟨rfl, rfl⟩
  exact hmay hmay'

/-- Every answer that is had may make the evaluation stop, for one reason or another. -/
lemma consults_of_passesOn {τ : Task} {s : Store} {next : Result Value → Host → Result α}
    (hstop : PassesOn next) (H : Host) : Consults (fun H => next (H τ s) H) H τ s := by
  classical
  obtain ⟨e, he⟩ : ∃ e, ∀ t, next (H τ s) H ≠ .error e t := by
    cases next (H τ s) H with
    | ok a t => exact ⟨.abort, fun _ h => by cases h⟩
    | error e t =>
      cases e with
      | abort => exact ⟨.exhausted, fun _ h => by cases h⟩
      | _ => exact ⟨.abort, fun _ h => by cases h⟩
  obtain ⟨t, ht⟩ := hstop e s
  obtain ⟨H', hsame, hother⟩ : ∃ H' : Host, H' τ s = .error e s ∧
      ∀ τ' s', ¬ (τ' = τ ∧ s' = s) → H' τ' s' = H τ' s' :=
    ⟨fun τ' s' => if τ' = τ ∧ s' = s then .error e s else H τ' s', if_pos ⟨rfl, rfl⟩,
      fun _ _ h => if_neg h⟩
  refine ⟨H', hother, ?_⟩
  dsimp only
  rw [hsame, ht]
  exact (he t).symm

/-- Answers on which the result does not depend, one by one, do not matter all together. -/
theorem congr_of_consults (h : Inquiry C post act) (hH : C.Kept H)
    (heq : ∀ τ s, Consults act H τ s → H' τ s = H τ s) : act H' = act H := by
  induction h with
  | done => rfl
  | @ask τ s next hmay hstop _ ih =>
    have hfirst := consults_of_passesOn (τ := τ) (s := s) hstop H
    dsimp only
    rw [heq τ s hfirst]
    refine ih _ (hH _ _ hmay) fun τ' s' hask => ?_
    by_cases hsame : τ' = τ ∧ s' = s
    · obtain ⟨rfl, rfl⟩ := hsame
      exact heq _ _ hfirst
    · obtain ⟨H₁, hH₁, hne⟩ := hask
      refine heq _ _ ⟨H₁, hH₁, ?_⟩
      dsimp only
      rwa [hH₁ τ s fun h => hsame ⟨h.1.symm, h.2.symm⟩]

/-- The result settles along hosts whose answers to the questions allowed do. -/
theorem settles {hosts : Nat → Host} (h : Inquiry C post act) (hH : C.Kept H)
    (hsettled : ∀ τ s, C.may τ s → ∃ N, ∀ n, N ≤ n → hosts n τ s = H τ s) :
    ∃ N, ∀ n, N ≤ n → act (hosts n) = act H := by
  induction h with
  | done => exact ⟨0, fun _ _ => rfl⟩
  | @ask τ s next hmay _ _ ih =>
    obtain ⟨N, hN⟩ := hsettled _ _ hmay
    obtain ⟨M, hM⟩ := ih _ (hH _ _ hmay)
    refine ⟨max N M, fun n hn => ?_⟩
    dsimp only
    rw [hN n (Nat.le_trans (Nat.le_max_left N M) hn)]
    exact hM n (Nat.le_trans (Nat.le_max_right N M) hn)

end Inquiry

end CallByNeed
