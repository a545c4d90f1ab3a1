import CallByNeed.Eval.Store
import Mathlib.Tactic.Common

/-!
# Bounded runs

A machine, a graph and a linear body are all run by a function that takes a bound on the number of
steps and a configuration. `Reaches` says that a run goes on from one configuration to another one
whatever the bound, and `Ends` that it ends with a known result once the bound is large enough. Both
also say that a smaller bound is used up, so that a run that ends cannot have been cut off.

Results are compared up to the text of internal errors (`Agrees`).
-/

namespace CallByNeed

/-- What an evaluation gives, with the store it leaves. -/
abbrev Result (α : Type) := EStateM.Result Halt Store α

/-! ## Agreement -/

/-- The evaluation stopped because of a defect in the code. -/
def Halt.IsInternal : Halt → Prop
  | .error (.internal _) => True
  | _ => False

/-- Both stop for the same reason; what is wrong with defective code may differ. -/
def Halt.Agrees (h h' : Halt) : Prop := h = h' ∨ (h.IsInternal ∧ h'.IsInternal)

lemma Halt.Agrees.refl (h : Halt) : h.Agrees h := .inl rfl

lemma Halt.Agrees.symm {h h' : Halt} (hh : h.Agrees h') : h'.Agrees h := by
  rcases hh with rfl | ⟨hi, hi'⟩
  · exact .inl rfl
  · exact .inr ⟨hi', hi⟩

lemma Halt.Agrees.trans {h h' h'' : Halt} (hh : h.Agrees h') (hh' : h'.Agrees h'') :
    h.Agrees h'' := by
  rcases hh with rfl | ⟨hi, hi'⟩
  · exact hh'
  · rcases hh' with rfl | ⟨-, hi''⟩
    · exact .inr ⟨hi, hi'⟩
    · exact .inr ⟨hi, hi''⟩

lemma Halt.Agrees.exhausted {h : Halt} (hh : h.Agrees .exhausted) : h = .exhausted := by
  rcases hh with rfl | ⟨-, hi⟩
  · rfl
  · exact hi.elim

/-- The same value or the same reason to stop, and the same store. -/
inductive Agrees {α : Type} : Result α → Result α → Prop where
  | ok (a : α) (s : Store) : Agrees (.ok a s) (.ok a s)
  | error {h h' : Halt} (hh : h.Agrees h') (s : Store) : Agrees (.error h s) (.error h' s)

namespace Agrees

variable {α : Type} {r r' r'' : Result α}

lemma refl (r : Result α) : Agrees r r := by
  cases r with
  | ok a s => exact .ok a s
  | error h s => exact .error (.refl h) s

/-- Defects agree. -/
lemma internal (f f' : InternalFault) (s : Store) :
    Agrees (.error (.error (.internal f)) s : Result α) (.error (.error (.internal f')) s) :=
  have hi : ∀ f, (Halt.error (.internal f)).IsInternal := fun _ => trivial
  .error (.inr ⟨hi f, hi f'⟩) s

lemma symm (h : Agrees r r') : Agrees r' r := by
  cases h with
  | ok a s => exact .ok a s
  | error hh s => exact .error hh.symm s

lemma trans (h : Agrees r r') (h' : Agrees r' r'') : Agrees r r'' := by
  cases h with
  | ok a s => exact h'
  | error hh s =>
    cases h' with
    | error hh' s => exact .error (hh.trans hh') s

end Agrees

/-! ## Exhaustion -/

/-- The bound was used up. -/
def Exhausts {α : Type} (r : Result α) : Prop := ∃ s, r = .error .exhausted s

lemma Agrees.exhausts {α : Type} {r r' : Result α} (h : Agrees r r') (h' : Exhausts r') :
    Exhausts r := by
  obtain ⟨s, rfl⟩ := h'
  cases h with
  | error hh s => exact ⟨s, by rw [hh.exhausted]⟩

/-! ## Runs -/

section

variable {μ μ' : Type} {R : Nat → μ → Eval Value} {m m' m'' : μ} {s s' s'' : Store}
  {r r' : Result Value}

/-- A run goes on from one configuration to another one. -/
def Reaches (R : Nat → μ → Eval Value) (m : μ) (s : Store) (m' : μ) (s' : Store) : Prop :=
  ∃ k, (∀ n, R (n + k) m s = R n m' s') ∧ ∀ n < k, Exhausts (R n m s)

/-- A run goes on, by one step at least. -/
def Advances (R : Nat → μ → Eval Value) (m : μ) (s : Store) (m' : μ) (s' : Store) : Prop :=
  ∃ k, (∀ n, R (n + (k + 1)) m s = R n m' s') ∧ ∀ n < k + 1, Exhausts (R n m s)

/-- A run ends, with a result that agrees with a known one. -/
def Ends (R : Nat → μ → Eval Value) (m : μ) (s : Store) (r : Result Value) : Prop :=
  ∃ k, (∀ n ≥ k, Agrees (R n m s) r) ∧ ∀ n < k, Exhausts (R n m s)

lemma Reaches.refl (R : Nat → μ → Eval Value) (m : μ) (s : Store) : Reaches R m s m s :=
  ⟨0, fun _ => rfl, fun n hn => absurd hn (Nat.not_lt_zero n)⟩

/-- One step. -/
lemma Reaches.step (hzero : Exhausts (R 0 m s)) (h : ∀ n, R (n + 1) m s = R n m' s') :
    Reaches R m s m' s' := by
  refine ⟨1, h, fun n hn => ?_⟩
  obtain rfl : n = 0 := by omega
  exact hzero

lemma Reaches.trans (h : Reaches R m s m' s') (h' : Reaches R m' s' m'' s'') :
    Reaches R m s m'' s'' := by
  obtain ⟨k, hk, hlow⟩ := h
  obtain ⟨k', hk', hlow'⟩ := h'
  refine ⟨k' + k, fun n => ?_, fun n hn => ?_⟩
  · rw [← Nat.add_assoc, hk, hk']
  · by_cases hlt : n < k
    · exact hlow n hlt
    · obtain ⟨j, rfl⟩ := Nat.exists_eq_add_of_le' (Nat.le_of_not_lt hlt)
      rw [hk]
      exact hlow' j (by omega)

/-- One step. -/
lemma Advances.step (hzero : Exhausts (R 0 m s)) (h : ∀ n, R (n + 1) m s = R n m' s') :
    Advances R m s m' s' := by
  refine ⟨0, h, fun n hn => ?_⟩
  obtain rfl : n = 0 := by omega
  exact hzero

lemma Advances.reaches (h : Advances R m s m' s') : Reaches R m s m' s' := by
  obtain ⟨k, hk, hlow⟩ := h
  exact ⟨k + 1, hk, hlow⟩

lemma Reaches.advances (h : Reaches R m s m' s') (h' : Advances R m' s' m'' s'') :
    Advances R m s m'' s'' := by
  obtain ⟨k', hk', hlow'⟩ := h'
  obtain ⟨k, hk, hlow⟩ := h
  refine ⟨k' + k, fun n => ?_, fun n hn => ?_⟩
  · rw [show n + (k' + k + 1) = (n + (k' + 1)) + k by omega, hk, hk']
  · by_cases hlt : n < k
    · exact hlow n hlt
    · obtain ⟨i, rfl⟩ := Nat.exists_eq_add_of_le' (Nat.le_of_not_lt hlt)
      rw [hk]
      exact hlow' i (by omega)

lemma Reaches.ends (h : Reaches R m s m' s') (h' : Ends R m' s' r) : Ends R m s r := by
  obtain ⟨k, hk, hlow⟩ := h
  obtain ⟨k', hk', hlow'⟩ := h'
  refine ⟨k' + k, fun n hn => ?_, fun n hn => ?_⟩
  · obtain ⟨j, rfl⟩ := Nat.exists_eq_add_of_le' (show k ≤ n by omega)
    rw [hk]
    exact hk' j (by omega)
  · by_cases hlt : n < k
    · exact hlow n hlt
    · obtain ⟨j, rfl⟩ := Nat.exists_eq_add_of_le' (Nat.le_of_not_lt hlt)
      rw [hk]
      exact hlow' j (by omega)

/-- A run that ends at its first step. -/
lemma Ends.step (hzero : Exhausts (R 0 m s)) (h : ∀ n, Agrees (R (n + 1) m s) r) :
    Ends R m s r := by
  refine ⟨1, fun n hn => ?_, fun n hn => ?_⟩
  · obtain ⟨j, rfl⟩ := Nat.exists_eq_add_of_le' hn
    exact h j
  · obtain rfl : n = 0 := by omega
    exact hzero

lemma Ends.agrees (h : Ends R m s r) (h' : Agrees r r') : Ends R m s r' := by
  obtain ⟨k, hk, hlow⟩ := h
  exact ⟨k, fun n hn => (hk n hn).trans h', hlow⟩

/-- A run that ends by using up a bound is cut off by every bound. -/
lemma Ends.exhausts (h : Ends R m s r) (hr : Exhausts r) (n : Nat) : Exhausts (R n m s) := by
  obtain ⟨k, hk, hlow⟩ := h
  by_cases hlt : n < k
  · exact hlow n hlt
  · exact (hk n (Nat.le_of_not_lt hlt)).exhausts hr

end

end CallByNeed
