import CallByNeed.Proofs.Eval.Laws

/-!
# The depth of evaluations

Calls of closures, promises of compiled code, and late arguments that are wanted at once are evaluated
one level deeper. Whatever is evaluated, from a store within the limit, the depth stays within the
limit at every moment, and in the end it is what it was in the beginning, however the evaluation ends
(`depth_balanced`).

* The moments of an evaluation are the stores that it passes through: where it begins and ends, what a
  machine finds before each of its instructions, and the moments of the evaluations that it asks its
  host for (`Moment`).
* That the depth is kept is a law of evaluations (`Law.level`), confined to stores within the limit.
-/

namespace CallByNeed

/-- Evaluations begun within the limit leave the depth as it is. -/
def Law.level (limit : Nat) : Law limit where
  inside s := s.depth ≤ limit
  done s t := t.depth = s.depth
  failed _ s t := t.depth = s.depth
  refl _ := rfl
  trans h h' := h'.trans h
  stop _ _ _ _ := rfl
  after h h' := h'.trans h
  set _ _ _ _ := rfl
  addChild _ _ := rfl
  addPromise _ _ := rfl
  note _ _ := rfl
  left h := by
    dsimp only at h ⊢
    omega
  broken h := by
    dsimp only at h ⊢
    omega
  forced _ h := h
  restored _ h := h
  stays hs h := Nat.le_trans (Nat.le_of_eq h) hs
  enters _ h := Nat.lt_of_not_le h
  begins hs := hs

instance (limit : Nat) : (Law.level limit).Lenient := ⟨fun _ _ _ => rfl⟩

instance (limit : Nat) : (Law.level limit).Bounded := ⟨fun _ => rfl⟩

/-! ## What may be evaluated -/

/-- What evaluations are of: tasks, and the parts of them that are functions of their own. -/
inductive Activity where
  | task (τ : Task)
  /-- A call is evaluated as it is written. -/
  | call (env : EnvId) (c : Call)
  /-- A closure is applied to arguments. -/
  | apply (f : FunctionUnit) (env : EnvId) (c : Call) (args : ArgList)
  /-- A special form is given a call. -/
  | special (form : Special) (env : EnvId) (c : Call)

namespace Activity

/-- Carries out an activity with the help of a host; a unit is given a number of steps. -/
def perform (options : RuntimeOptions) (steps : Nat) (host : Host) : Activity → Eval Value
  | .task τ => CallByNeed.perform options host steps τ
  | .call env c => Interpreter.apply options.maxDepth host env c
  | .apply f env c args => applyClosure options.maxDepth host f env c args
  | .special form env c => form.invoke host env c

/-- Every activity obeys the laws that excuse defects. -/
lemma directs {options : RuntimeOptions} {L : Law options.maxDepth} [L.Lenient] [L.Bounded]
    (steps : Nat) (a : Activity) : L.Directs fun H => a.perform options steps H := by
  cases a with
  | task τ => exact Law.perform steps τ
  | call env c => exact Law.apply env c
  | apply f env c args => exact Law.applyClosure f env c args
  | special form env c => exact Law.special env c form

end Activity

/-! ## Moments -/

/-- The evaluation leaves a store, with a value or without. -/
def EndsIn {α : Type} (r : Result α) (t : Store) : Prop :=
  (∃ a, r = .ok a t) ∨ ∃ h, r = .error h t

/-- The stores that an activity passes through that begins in the store `s`, where evaluations nest up
to a bound. -/
inductive Moment (options : RuntimeOptions) : Nat → Nat → Activity → Store → Store → Prop
  | begins {bound steps : Nat} {a : Activity} {s : Store} : Moment options bound steps a s s
  | ends {bound steps : Nat} {a : Activity} {s t : Store}
    (h : EndsIn (a.perform options steps (answer options bound) s) t) :
    Moment options bound steps a s t
  /-- An instruction is next. -/
  | visits {bound steps : Nat} {u : CodeUnit} {env : EnvId} {m : Machine} {s t : Store}
    (h : Machine.Visits options (answer options bound) u env s m t) :
    Moment options bound steps (.task (.execute u env)) s t
  /-- A nested evaluation begins. -/
  | asks {bound steps : Nat} {a : Activity} {τ : Task} {s t : Store}
    (h : Consults (fun H => a.perform options steps H s) (answer options bound) τ t) :
    Moment options bound steps a s t
  /-- A nested evaluation is under way. -/
  | within {bound steps : Nat} {a : Activity} {τ : Task} {s m t : Store}
    (h : Consults (fun H => a.perform options steps H s) (answer options (bound + 1)) τ m)
    (ht : Moment options bound bound (.task τ) m t) : Moment options (bound + 1) steps a s t

section

variable {options : RuntimeOptions} {bound steps : Nat} {a : Activity} {s t : Store}

/-- An evaluation that obeys the law leaves the depth as it is. -/
lemma Law.Governs.depth {α : Type} {limit : Nat} {act : Eval α} (h : (Law.level limit).Governs act)
    (hs : s.depth ≤ limit) (ht : EndsIn (act s) t) : t.depth = s.depth := by
  have hr := h s hs
  obtain ⟨a, ha⟩ | ⟨e, he⟩ := ht
  · rw [ha] at hr
    cases hr with
    | ok hd => exact hd
  · rw [he] at hr
    cases hr with
    | error hf => exact hf

lemma answer_level (options : RuntimeOptions) (bound : Nat) (τ : Task) :
    (Law.level options.maxDepth).Governs (answer options bound τ) := Law.answer options _ bound τ

/-- A machine that is visited finds the depth that the unit was begun at. -/
lemma Machine.Visits.depth {u : CodeUnit} {env : EnvId} {m : Machine}
    (h : Machine.Visits options (answer options bound) u env s m t) (hs : s.depth ≤ options.maxDepth) :
    t.depth = s.depth := by
  induction h with
  | start => rfl
  | @on m m' t t' _ hm ih =>
    have hadvance : (Law.level options.maxDepth).Governs
        (Machine.advance options (answer options bound) u env m) :=
      (Law.advance u env m).governs (answer_level options bound)
    exact (hadvance.depth (Nat.le_trans (Nat.le_of_eq ih) hs) (.inl ⟨_, hm⟩)).trans ih

/-- Nested evaluations begin within the limit. -/
lemma Consults.depth {τ : Task} (hs : s.depth ≤ options.maxDepth)
    (h : Consults (fun H => a.perform options steps H s) (answer options bound) τ t) :
    t.depth ≤ options.maxDepth :=
  (a.directs (L := .level options.maxDepth) steps s hs).may_of_consults
    (fun τ s hs => answer_level options bound τ s hs) h

/-- The depth stays within the limit at every moment. -/
lemma Moment.depth (h : Moment options bound steps a s t) (hs : s.depth ≤ options.maxDepth) :
    t.depth ≤ options.maxDepth := by
  induction h with
  | begins => exact hs
  | @ends bound steps a s t ht =>
    have hact := (a.directs (L := .level options.maxDepth) steps).governs (answer_level options bound)
    exact Nat.le_trans (Nat.le_of_eq (hact.depth hs ht)) hs
  | visits h => exact Nat.le_trans (Nat.le_of_eq (h.depth hs)) hs
  | asks h => exact Consults.depth hs h
  | within h _ ih => exact ih (Consults.depth hs h)

end

/-- **The depth is balanced**: it is within the limit at every moment of an evaluation, and when the
evaluation is over, with a value or stopped for any reason, it is what it was before. -/
theorem depth_balanced (options : RuntimeOptions) (bound steps : Nat) (a : Activity) (s : Store)
    (hs : s.depth ≤ options.maxDepth) :
    (∀ t, Moment options bound steps a s t → t.depth ≤ options.maxDepth) ∧
      ∀ t, EndsIn (a.perform options steps (answer options bound) s) t → t.depth = s.depth :=
  ⟨fun _ h => h.depth hs,
    fun _ ht => ((a.directs steps).governs (answer_level options bound)).depth hs ht⟩

/-- A function that is applied at the limit, so that its body is not executed any more. -/
theorem depth_balanced_at_limit :
    let s : Store := { Store.fresh with depth := 2 }
    let f : FunctionUnit := ⟨"f", [], ⟨"f", #[], #[], 0, [], []⟩⟩
    let a : Activity := .apply f globalEnv ⟨.symbol ⟨"f"⟩, []⟩ []
    s.depth ≤ (⟨2, false⟩ : RuntimeOptions).maxDepth ∧
      ((∀ t, Moment ⟨2, false⟩ 9 9 a s t → t.depth ≤ 2) ∧
        ∀ t, EndsIn (a.perform ⟨2, false⟩ 9 (answer ⟨2, false⟩ 9) s) t → t.depth = 2) := by
  intro s f a
  have hs : s.depth ≤ (⟨2, false⟩ : RuntimeOptions).maxDepth := by decide
  exact ⟨hs, depth_balanced ⟨2, false⟩ 9 9 a s hs⟩

end CallByNeed
