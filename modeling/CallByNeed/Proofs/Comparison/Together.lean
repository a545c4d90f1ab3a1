import CallByNeed.Proofs.Comparison.Pinned
import CallByNeed.Proofs.Source.Execution

/-!
# Evaluations on hosts of all bounds

An evaluation that asks a host goes together with another one if both are alike on the hosts that
programs run on, whatever the bounds (`Together`). Executing a unit may take the place of what its
expression means, on either side, and so may asking the host for an expression as written. The hosts
of the first run may break off now and then (`HostFamily`).
-/

namespace CallByNeed

/-! ## Hosts of all bounds -/

/-- Hosts for all bounds that do what the hosts of programs do, unless they break off. -/
structure HostFamily where
  options : RuntimeOptions
  host : Nat → Host
  oblivious : ∀ b, (host b).Oblivious
  performs : ∀ b τ s, Exhausts (host b τ s) ∨
    ∃ j, b = j + 1 ∧ host b τ s = perform options (host j) j τ s

/-- How deeply evaluations may nest one in another. -/
abbrev HostFamily.limit (F : HostFamily) : Nat := F.options.maxDepth

/-- The hosts of programs, which never break off without need. -/
def HostFamily.whole (r : RuntimeOptions) : HostFamily where
  options := r
  host := answer r
  oblivious := answer_oblivious r
  performs b τ s := by
    cases b with
    | zero => exact .inl ⟨s, rfl⟩
    | succ j => exact .inr ⟨j, rfl, rfl⟩

instance : Coe RuntimeOptions HostFamily := ⟨.whole⟩

variable {W : World} {r : RuntimeOptions} {F : HostFamily} {b : Nat} {env : EnvId}
  {o : CompilerOptions} {e : Expr} {u : CodeUnit} {A B : Host → Eval Value}

/-- Hosts whose bounds are at most `b` do related tasks alike. -/
def World.Hosts (W : World) (F : HostFamily) (b : Nat) : Prop :=
  ∀ j ≤ b, ∀ g, W.Bounds j g → HostRel W (F.host j) fun k => answer F.options (g k)

/-- The evaluations are alike on hosts whose bounds are at most `b`. -/
def Together (W : World) (F : HostFamily) (b : Nat) (env : EnvId) (A B : Host → Eval Value) :
    Prop :=
  ∀ j ≤ b, ∀ n g, W.Valid n env → W.Bounds j g →
    EvalRel W n (ValueRel W) (A (F.host j)) fun k => B (answer F.options (g k))

/-! ## Units -/

section

variable {n : Nat} {g : Nat → Nat} (hW : W.Lawful) (hcut : W.cut)
include hW hcut

/-- Running a unit on the left, in the place of what its expression means. -/
lemma CompiledFrom.run_left (hu : CompiledFrom o e u) {H : Host} (hH : H.Oblivious)
    {B : Nat → Eval Value}
    (h : ∀ M, Means o r.maxDepth env e M → EvalRel W n (ValueRel W) (M H) B) (i : Nat) :
    EvalRel W n (ValueRel W) (Machine.run r H u env i (.start u env)) B := by
  obtain ⟨M, hM, hfollows⟩ := hu.executes r.maxDepth env
  obtain ⟨_, hB⟩ := hu.handsOn
  exact EvalRel.run_left (i := i) hW hcut hH hB.steps (hfollows H) (h M hM)

/-- Running a unit on the right, in the place of what its expression means. -/
lemma CompiledFrom.run_right (hu : CompiledFrom o e u) (hg : Unbounded g) {A : Eval Value}
    (h : ∀ M, Means o r.maxDepth env e M →
      EvalRel W n (ValueRel W) A fun k => M (answer r (g k))) :
    EvalRel W n (ValueRel W) A
      fun k => Machine.run r (answer r (g k)) u env (g k) (.start u env) := by
  obtain ⟨M, hM, hfollows⟩ := hu.executes r.maxDepth env
  obtain ⟨_, hB⟩ := hu.handsOn
  exact EvalRel.run_right (i := g) hW hcut hg hB.steps
    (fun k => hfollows (answer r (g k))) (h M hM)

omit hW in
/-- What performing a task gives, asking a host for it gives with a bound one larger. -/
lemma EvalRel.ask_left {τ : Task} {B : Nat → Eval Value}
    (h : ∀ j, b = j + 1 → EvalRel W n (ValueRel W) (perform F.options (F.host j) j τ) B) :
    EvalRel W n (ValueRel W) (F.host b τ) B := by
  intro s t hst hn
  obtain ⟨s', hs'⟩ | ⟨j, hj, hs⟩ := F.performs b τ s
  · exact .excused hs' hcut
  · rw [hs]
    exact h j hj s t hst hn

omit hW hcut in
lemma EvalRel.ask_right {τ : Task} {A : Eval Value} (hg : Unbounded g)
    (h : EvalRel W n (ValueRel W) A fun k => perform r (answer r (g k - 1)) (g k - 1) τ) :
    EvalRel W n (ValueRel W) A fun k => answer r (g k) τ := by
  intro s t hst hn
  obtain ⟨m, hm⟩ := hg 1
  refine (h s t hst hn).eventually (m := m) fun k hk => ?_
  show answer r (g k) τ t = perform r (answer r (g k - 1)) (g k - 1) τ t
  conv_lhs => rw [← Nat.sub_add_cancel (hm k hk)]
  rfl

end

lemma Unbounded.pred {g : Nat → Nat} (h : Unbounded g) : Unbounded fun k => g k - 1 := fun i => by
  obtain ⟨m, hm⟩ := h (i + 1)
  exact ⟨m, fun k hk => Nat.le_sub_of_add_le (hm k hk)⟩

/-- All hosts do related tasks alike if they evaluate related code alike. -/
theorem World.hosts_of_code (hW : W.Lawful) (hcut : W.cut)
    (hcode : ∀ b, W.Hosts F b → ∀ c c' env, W.code c c' → ∀ n g, W.Valid n env → W.Bounds b g →
      EvalRel W n (ValueRel W) (F.host (b + 1) (c.task env))
        fun k => perform F.options (answer F.options (g k)) (g k) (c'.task env)) (b : Nat) :
    W.Hosts F b := by
  induction b with
  | zero =>
    intro j hj g _ n τ τ' _
    obtain rfl := Nat.le_zero.1 hj
    exact EvalRel.ask_left hcut fun j hj => absurd hj (Nat.succ_ne_zero j).symm
  | succ b ih =>
    intro j hj g hg n τ τ' hτ
    rcases Nat.le_succ_iff.1 hj with hj | rfl
    · exact ih j hj g hg n τ τ' hτ
    · have hpred := (hg.unbounded hcut).pred
      refine EvalRel.ask_right (hg.unbounded hcut) ?_
      cases hτ with
      | force p =>
        refine EvalRel.ask_left hcut ?_
        rintro j hj
        obtain rfl := Nat.succ.inj hj
        exact forcePromise_rel hW (ih b (Nat.le_refl b) _ (.inl ⟨hcut, hpred⟩)) p
      | code hc he => exact hcode b ih _ _ _ hc n _ he (.inl ⟨hcut, hpred⟩)

namespace Together

variable (hW : W.Lawful) (hcut : W.cut)
include hcut

section

variable (hd : ¬ W.deep)
include hW hd

/-- A unit executed one level deeper on the left, in the place of what its expression means. -/
lemma unit_left (hu : CompiledFrom o e u)
    (h : ∀ M, Means o F.limit env e M → Together W F b env M B) :
    Together W F b env (fun H => H.executeNested F.limit u env) B := by
  intro j hj n g henv hg
  refine EvalRel.enter_left hd (hW.depth hd) F.limit (EvalRel.ask_left hcut ?_)
  rintro i rfl
  refine hu.run_left hW hcut (F.oblivious i) (fun M hM => ?_) i
  exact h M hM i (Nat.le_of_succ_le hj) n g henv (.inl ⟨hcut, hg.unbounded hcut⟩)

/-- A unit executed one level deeper on the right, in the place of what its expression means. -/
lemma unit_right (hu : CompiledFrom o e u)
    (h : ∀ M, Means o F.limit env e M → Together W F b env A M) :
    Together W F b env A fun H => H.executeNested F.limit u env := by
  intro j hj n g henv hg
  have hpred := (hg.unbounded hcut).pred
  refine EvalRel.enter_right hd (hW.depth hd) F.limit
    (EvalRel.ask_right (hg.unbounded hcut) (hu.run_right hW hcut hpred fun M hM => ?_))
  exact h M hM j hj n _ henv (.inl ⟨hcut, hpred⟩)

end

end Together

end CallByNeed
