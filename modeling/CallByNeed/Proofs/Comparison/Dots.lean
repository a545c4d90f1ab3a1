import CallByNeed.Proofs.Comparison.Meanings

/-!
# When `...` is read

A builtin that is called by name reads what `...` is bound to before its arguments are evaluated, one
that is called directly reads it afterwards. In a world where that stays, and in which only values of
the first run count, this makes no difference.
-/

namespace CallByNeed

open Meaning

variable {W : World} {n : Nat} {H : Host} {H' : Nat → Host} {env : EnvId} {s t s' t' : Store}
  {α β : Type} {R : Nat → α → β → Prop} {A : Eval α} {B : Nat → Eval β}

/-! ## What `...` is bound to -/

/-- Two evaluations end with a value if both do. -/
lemma Eval.bind_eq_ok {f : α → Eval β} {b : β} :
    (A >>= f) s = .ok b s' ↔ ∃ a s₁, A s = .ok a s₁ ∧ f a s₁ = .ok b s' := by
  rw [Eval.bind_apply]
  cases A s <;> simp

/-- Reading `...` gives what it is bound to. -/
lemma Eval.findDots_eq_ok {dots : ArgList} :
    Eval.findDots env s = .ok dots s' ↔ s' = s ∧ s.find? env .ellipsis = some (.dots dots) := by
  unfold Eval.findDots Eval.findVariable
  rw [Eval.bind_apply, Eval.get_bind_apply]
  cases h : s.find? env .ellipsis with
  | none =>
    dsimp only
    constructor
    · rintro ⟨⟩
    · rintro ⟨-, ⟨⟩⟩
  | some v =>
    dsimp only
    cases v with
    | dots dots' =>
      constructor
      · rintro ⟨⟩
        exact ⟨rfl, rfl⟩
      · rintro ⟨rfl, hd⟩
        cases hd
        rfl
    | _ =>
      constructor
      · rintro ⟨⟩
      · rintro ⟨-, ⟨⟩⟩

/-- What `...` is bound to around an environment stays. -/
lemma Store.Grows.find?_ellipsis (h : s.Grows W s') (hs : s.Pinned W) (hp : W.pins)
    (hsteady : W.steady) (henv : env < s.environments.size) :
    s'.find? env .ellipsis = s.find? env .ellipsis := by
  unfold Store.find?
  rw [h.chain env henv]
  have hwithin := hs.within env henv
  generalize s.chain env = envs at hwithin
  induction envs with
  | nil => rfl
  | cons e envs ih =>
    rw [List.findSome?_cons, List.findSome?_cons,
      h.dots hp hsteady e (hwithin e List.mem_cons_self),
      ih fun x hx => hwithin x (List.mem_cons_of_mem e hx)]

/-- The evaluation keeps what `...` is bound to. -/
def Keeps (W : World) (n : Nat) (A : Eval α) : Prop :=
  ∀ s t, StoreRel W s t → n ≤ s.environments.size → ∀ a s', A s = .ok a s' → s.Grows W s'

/-! ## Reading it before or after -/

/-- In a lax world only runs that end with a value are compared. -/
lemma EvalRel.of_ok (hlax : W.lax) (hcut : W.cut)
    (h : ∀ s t, StoreRel W s t → n ≤ s.environments.size → ∀ a s', A s = .ok a s' →
      Matches W R s t (.ok a s') B) : EvalRel W n R A B := by
  intro s t hst hn
  cases hA : A s with
  | ok a s' => exact h s t hst hn a s' hA
  | error e s' =>
    refine .excused rfl ?_
    cases e with
    | error e => exact .inr hlax
    | abort => exact hlax
    | exhausted => exact hcut

namespace Meaning

variable {values : Eval (List Value)} {values' : Nat → Eval (List Value)} {call : Call}

/-- What a builtin is given when `...` is read after the arguments were evaluated. -/
def gatherLast (H : Host) (env : EnvId) (call : Call) (values : Eval (List Value)) :
    Eval (List (Option Symbol) × List Value) := do
  let vs ← values
  gather H env call (pure vs)

lemma gatherLast_rel (hH : HostRel W H H')
    (h : EvalRel W n (CountRel W call.args.length) values values') :
    EvalRel W n (SuppliedRel W) (gatherLast H env call values)
      fun k => gatherLast (H' k) env call (values' k) :=
  h.bind fun _ _ _ _ hvs =>
    gather_rel hH call (EvalRel.pure fun _ hm => ⟨hvs.1.mono hm, hvs.2⟩)

/-- If `...` stays, then it may be read first or last. -/
lemma gatherLast_eq_ok {x : List (Option Symbol) × List Value}
    (hkeeps : ∀ vs s', values s = .ok vs s' →
      s'.find? env .ellipsis = s.find? env .ellipsis) :
    gatherLast H env call values s = .ok x s' ↔ gather H env call values s = .ok x s' := by
  unfold gatherLast gather
  cases call.ellipsisIndex? with
  | none => simp only [pure_bind]
  | some position =>
    simp only [pure_bind, Eval.bind_eq_ok, Eval.findDots_eq_ok]
    constructor
    · rintro ⟨vs, s₁, hvs, dots, _, ⟨rfl, hdots⟩, hx⟩
      exact ⟨dots, s, ⟨rfl, hkeeps vs _ hvs ▸ hdots⟩, vs, _, hvs, hx⟩
    · rintro ⟨dots, _, ⟨rfl, hdots⟩, vs, s₁, hvs, hx⟩
      exact ⟨vs, s₁, hvs, dots, s₁, ⟨rfl, (hkeeps vs s₁ hvs).trans hdots⟩, hx⟩

section

variable (call) (hp : W.pins) (hsteady : W.steady) (hlax : W.lax) (hcut : W.cut) (hH : HostRel W H H')
  (henv : W.Valid n env) (hkeeps : Keeps W n values)
  (h : EvalRel W n (CountRel W call.args.length) values values')
include hp hsteady hlax hcut hH henv hkeeps h

/-- The first run reads `...` last, the second one first. -/
lemma gatherLast_gather_rel :
    EvalRel W n (SuppliedRel W) (gatherLast H env call values)
      fun k => gather (H' k) env call (values' k) := by
  refine .of_ok hlax hcut fun s t hst hn x s' hx => ?_
  rw [gatherLast_eq_ok fun vs s₁ hvs => (hkeeps s t hst hn vs s₁ hvs).find?_ellipsis (hst.left hp)
    hp hsteady (Nat.lt_of_lt_of_le (henv hp) hn)] at hx
  exact hx ▸ gather_rel hH call h s t hst hn

/-- The first run reads `...` first, the second one last. -/
lemma gather_gatherLast_rel :
    EvalRel W n (SuppliedRel W) (gather H env call values)
      fun k => gatherLast (H' k) env call (values' k) := by
  refine .of_ok hlax hcut fun s t hst hn x s' hx => ?_
  rw [← gatherLast_eq_ok fun vs s₁ hvs => (hkeeps s t hst hn vs s₁ hvs).find?_ellipsis
    (hst.left hp) hp hsteady (Nat.lt_of_lt_of_le (henv hp) hn)] at hx
  exact hx ▸ gatherLast_rel hH h s t hst hn

end

end Meaning

end CallByNeed
