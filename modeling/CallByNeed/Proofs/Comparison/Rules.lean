import CallByNeed.Proofs.Comparison.World
import CallByNeed.Proofs.Flow.Semantics

/-!
# Rules for comparing evaluations

What is related stays related when environments are added, and evaluations that are put together in
the same way from related ones are related: one rule for each way of putting evaluations together.
-/

namespace CallByNeed

variable {W : World} {n m : Nat}

/-! ## More environments -/

namespace World

lemma Valid.mono (hnm : n ≤ m) {env : EnvId} (h : W.Valid n env) : W.Valid m env :=
  fun hp => Nat.lt_of_lt_of_le (h hp) hnm

/-- The same halt on both sides. -/
lemma HaltRel.refl {h : Halt} (hd : h.IsInternal → W.defects) : W.HaltRel h h := .inl ⟨rfl, hd⟩

end World

mutual

lemma ValueRel.mono (hnm : n ≤ m) : ∀ {v v' : Value}, ValueRel W n v v' → ValueRel W m v v'
  | _, _, .null => .null
  | _, _, .logical b => .logical b
  | _, _, .int i => .int i
  | _, _, .double x => .double x
  | _, _, .str s => .str s
  | _, _, .vector h => .vector (h.mono hnm)
  | _, _, .symbol s => .symbol s
  | _, _, .language e => .language e
  | _, _, .promise hp p => .promise hp p
  | _, _, .closure hf he => .closure hf (he.mono hnm)
  | _, _, .builtin b => .builtin b
  | _, _, .special h => .special h
  | _, _, .dots hp h => .dots hp (h.mono hnm)

lemma ValuesRel.mono (hnm : n ≤ m) :
    ∀ {vs vs' : List Value}, ValuesRel W n vs vs' → ValuesRel W m vs vs'
  | _, _, .nil => .nil
  | _, _, .cons h hs => .cons (h.mono hnm) (hs.mono hnm)

lemma BoundRel.mono (hnm : n ≤ m) : ∀ {v v' : Value}, BoundRel W n v v' → BoundRel W m v v'
  | _, _, .value h => .value (h.mono hnm)
  | _, _, .promise p => .promise p

lemma ArgsRel.mono (hnm : n ≤ m) :
    ∀ {as as' : ArgList}, ArgsRel W n as as' → ArgsRel W m as as'
  | _, _, .nil => .nil
  | _, _, .cons h ht hs => .cons (h.mono hnm) ht (hs.mono hnm)

end

lemma BindingRel.mono (hnm : n ≤ m) {name : Symbol} {v v' : Value} (h : BindingRel W n name v v') :
    BindingRel W m name v v' := by
  cases h with
  | bound h => exact .bound (h.mono hnm)
  | form hs => exact .form hs
  | dots h => exact .dots (h.mono hnm)

lemma SuspensionRel.mono (hnm : n ≤ m) {p p' : Suspension} (h : SuspensionRel W n p p') :
    SuspensionRel W m p p' := by
  cases h with
  | reading hr he => exact .reading hr (he.mono hnm)
  | code hc he => exact .code hc (he.mono hnm)
  | missing name => exact .missing name

lemma StatusRel.mono (hnm : n ≤ m) {p p' : Status} (h : StatusRel W n p p') :
    StatusRel W m p p' := by
  cases h with
  | pending h => exact .pending (h.mono hnm)
  | forcing h => exact .forcing (h.mono hnm)
  | forced h => exact .forced (h.mono hnm)

lemma PromiseRel.mono (hnm : n ≤ m) {p p' : Promise} (h : PromiseRel W n p p') :
    PromiseRel W m p p' := ⟨h.status.mono hnm, h.evaluations⟩

lemma EnvironmentRel.mono (hnm : n ≤ m) {E E' : Environment} (h : EnvironmentRel W n E E') :
    EnvironmentRel W m E E' :=
  ⟨h.outer, h.vars.imp fun _ _ hx => ⟨hx.name, hx.value.mono hnm⟩⟩

/-- Executing related units is the same task. -/
lemma TaskRel.execute {u u' : CodeUnit} {env : EnvId} (h : W.code (.unit u) (.unit u'))
    (he : W.Valid n env) : TaskRel W n (.execute u env) (.execute u' env) := .code h he

namespace Store.Grows

lemma refl (s : Store) : s.Grows W s := ⟨Nat.le_refl _, fun _ _ => rfl, fun _ _ _ _ => rfl⟩

lemma trans {s s' s'' : Store} (h : s.Grows W s') (h' : s'.Grows W s'') : s.Grows W s'' where
  size := Nat.le_trans h.size h'.size
  chain env he := (h'.chain env (Nat.lt_of_lt_of_le he h.size)).trans (h.chain env he)
  dots hp hs env he :=
    (h'.dots hp hs env (Nat.lt_of_lt_of_le he h.size)).trans (h.dots hp hs env he)

end Store.Grows

/-! ## Settling -/

section

variable {α β γ δ : Type} {B : Nat → Eval β} {t : Store} {r : Result β}

lemma Settles.const (act : Eval β) (t : Store) : Settles (fun _ => act) t (act t) :=
  ⟨0, fun _ _ => rfl⟩

/-- Running an evaluation and then another one. -/
lemma Eval.bind_apply {α β : Type} (A : Eval α) (f : α → Eval β) (s : Store) :
    (A >>= f) s = match A s with
      | .ok a s' => f a s'
      | .error h s' => .error h s' := by
  show EStateM.bind A f s = _
  unfold EStateM.bind
  cases A s <;> rfl

/-- Reading the store first. -/
lemma Eval.get_bind_apply {α : Type} (f : Store → Eval α) (s : Store) :
    (get >>= f) s = f s s := rfl

/-- What a first evaluation settles on is handed to the second. -/
lemma Settles.bind_ok {g : Nat → β → Eval δ} {b : β} {t' : Store} {r : Result δ}
    (h : Settles B t (.ok b t')) (h' : Settles (fun k => g k b) t' r) :
    Settles (fun k => B k >>= g k) t r := by
  obtain ⟨m, hm⟩ := h
  obtain ⟨m', hm'⟩ := h'
  refine ⟨max m m', fun k hk => ?_⟩
  show (B k >>= g k) t = r
  rw [Eval.bind_apply, hm k (by omega)]
  exact hm' k (by omega)

/-- A first evaluation that settles on stopping stops both. -/
lemma Settles.bind_error {g : Nat → β → Eval δ} {h : Halt} {t' : Store}
    (hB : Settles B t (.error h t')) : Settles (fun k => B k >>= g k) t (.error h t') := by
  obtain ⟨m, hm⟩ := hB
  refine ⟨m, fun k hk => ?_⟩
  show (B k >>= g k) t = .error h t'
  rw [Eval.bind_apply, hm k hk]

end

/-- Only the results from the given store matter. -/
lemma Matches.congr {α β : Type} {R : Nat → α → β → Prop} {s t : Store} {r : Result α}
    {B B' : Nat → Eval β} (h : Matches W R s t r B) (hB : ∀ k, B' k t = B k t) :
    Matches W R s t r B' := by
  have hsettles : ∀ {r}, Settles B t r → Settles B' t r := by
    rintro r ⟨m, hm⟩
    exact ⟨m, fun k hk => (hB k).trans (hm k hk)⟩
  cases h with
  | excused hr hh => exact .excused hr hh
  | dropped hB he => exact .dropped (hsettles hB) he
  | same hB hr => exact .same (hsettles hB) hr

/-! ## Putting evaluations together -/

namespace EvalRel

variable {α β γ δ : Type} {R : Nat → α → β → Prop} {R' : Nat → γ → δ → Prop} {A : Eval α}
  {B : Nat → Eval β}

/-- More environments may be asked for. -/
lemma mono (h : EvalRel W n R A B) (hnm : n ≤ m) : EvalRel W m R A B :=
  fun s t hst hm => h s t hst (Nat.le_trans hnm hm)

/-- Less may be claimed of the results. -/
lemma weaken {R'' : Nat → α → β → Prop} (h : EvalRel W n R A B)
    (hR : ∀ m ≥ n, ∀ a b, R m a b → R'' m a b) : EvalRel W n R'' A B := by
  intro s t hst hn
  have hm := h s t hst hn
  revert hm
  generalize A s = r
  intro hm
  cases hm with
  | excused hr hh => exact .excused hr hh
  | dropped hB he => exact .dropped hB he
  | same hB hr =>
    refine .same hB ?_
    cases hr with
    | ok h hst' hs ht => exact .ok (hR _ (Nat.le_trans hn hs.size) _ _ h) hst' hs ht
    | error hh hst' hs ht => exact .error hh hst' hs ht

protected lemma pure {a : α} {b : β} (h : ∀ m ≥ n, R m a b) :
    EvalRel W n R (pure a) fun _ => pure b :=
  fun s t hst hn => .same (.const _ t) (.ok (h _ hn) hst (.refl s) (.refl t))

/-- Both stop in the same way. -/
protected lemma throw {h : Halt} (hd : h.IsInternal → W.defects) :
    EvalRel W n R (throw h) fun _ => throw h :=
  fun s t hst _ => .same (.const _ t) (.error (.refl hd) hst (.refl s) (.refl t))

/-- Both fail with an error of the language. -/
lemma fail {e : EvalError} (he : (Halt.error e).IsInternal → W.defects) :
    EvalRel W n R (Eval.fail e) fun _ => Eval.fail e := EvalRel.throw he

/-- Both find a defect. -/
lemma defect (hd : W.defects) (f f' : InternalFault) :
    EvalRel W n R (Eval.fail (.internal f)) fun _ => Eval.fail (.internal f') :=
  fun s t hst _ =>
    .same (.const _ t) (.error (.inr ⟨hd, trivial, trivial⟩) hst (.refl s) (.refl t))

/-- One evaluation after the other. -/
protected lemma bind {f : α → Eval γ} {g : Nat → β → Eval δ} (h : EvalRel W n R A B)
    (h' : ∀ m ≥ n, ∀ a b, R m a b → EvalRel W m R' (f a) fun k => g k b) :
    EvalRel W n R' (A >>= f) fun k => B k >>= g k := by
  intro s t hst hn
  rw [Eval.bind_apply]
  cases h s t hst hn with
  | excused hr hh => exact .excused (by rw [hr]) hh
  | dropped hB he => exact .dropped hB.bind_error he
  | same hB hr =>
    cases hA : A s with
    | error e s' =>
      rw [hA] at hr
      cases hr with
      | error hh hst' hs ht => exact .same hB.bind_error (.error hh hst' hs ht)
    | ok a s' =>
      rw [hA] at hr
      cases hr with
      | ok hab hst' hs ht =>
        have hm := h' _ (Nat.le_trans hn hs.size) _ _ hab _ _ hst' (Nat.le_refl _)
        dsimp only
        revert hm
        generalize f a s' = r
        intro hm
        cases hm with
        | excused hr hh => exact .excused hr hh
        | dropped hB' he => exact .dropped (hB.bind_ok hB') he
        | same hB' hr =>
          refine .same (hB.bind_ok hB') ?_
          cases hr with
          | ok h hst'' hs' ht' => exact .ok h hst'' (hs.trans hs') (ht.trans ht')
          | error hh hst'' hs' ht' => exact .error hh hst'' (hs.trans hs') (ht.trans ht')

/-- Evaluations that are put together from the same store. -/
lemma get {f : Store → Eval γ} {g : Nat → Store → Eval δ}
    (h : ∀ s t, StoreRel W s t → n ≤ s.environments.size →
      EvalRel W s.environments.size R' (f s) fun k => g k t) :
    EvalRel W n R' (get >>= f) fun k => get >>= g k :=
  fun s t hst hn => (h s t hst hn s t hst (Nat.le_refl _)).congr fun _ => rfl

/-- The store is changed. -/
lemma modify {f g : Store → Store} {R : Nat → Unit → Unit → Prop}
    (h : ∀ s t, StoreRel W s t → n ≤ s.environments.size →
      StoreRel W (f s) (g t) ∧ s.Grows W (f s) ∧ t.Grows W (g t) ∧
        R (f s).environments.size () ()) :
    EvalRel W n R (modify f) fun _ => modify g := by
  intro s t hst hn
  obtain ⟨hst', hs, ht, hR⟩ := h s t hst hn
  exact .same (.const _ t) (.ok hR hst' hs ht)

/-- The store is changed, and something is taken from it. -/
lemma modifyGet {f : Store → α × Store} {g : Store → β × Store}
    (h : ∀ s t, StoreRel W s t → n ≤ s.environments.size →
      StoreRel W (f s).2 (g t).2 ∧ s.Grows W (f s).2 ∧ t.Grows W (g t).2 ∧
        R (f s).2.environments.size (f s).1 (g t).1) :
    EvalRel W n R (modifyGet f) fun _ => modifyGet g := by
  intro s t hst hn
  obtain ⟨hst', hs, ht, hR⟩ := h s t hst hn
  exact .same (.const _ t) (.ok hR hst' hs ht)

/-- Evaluations of related lists, one entry after the other. -/
lemma mapM {ι κ : Type} {L : Nat → ι → κ → Prop} (hL : ∀ {n m i j}, n ≤ m → L n i j → L m i j)
    {f : ι → Eval α} {g : Nat → κ → Eval β} (hR : ∀ {n m a b}, n ≤ m → R n a b → R m a b)
    (h : ∀ n i j, L n i j → EvalRel W n R (f i) fun k => g k j) {l : List ι} {l' : List κ}
    (hl : List.Forall₂ (L n) l l') :
    EvalRel W n (fun n => List.Forall₂ (R n)) (l.mapM f) fun k => l'.mapM (g k) := by
  induction l generalizing n l' with
  | nil =>
    cases hl
    exact EvalRel.pure fun _ _ => .nil
  | cons i l ih =>
    cases hl with
    | cons hij hl =>
      simp only [List.mapM_cons]
      refine (h n _ _ hij).bind fun m hm a b hab => ?_
      refine (ih (hl.imp fun _ _ => hL hm)).bind fun m' hm' as bs habs => ?_
      exact EvalRel.pure fun k hk =>
        .cons (hR (Nat.le_trans hm' hk) hab) (habs.imp fun _ _ => hR hk)

end EvalRel

/-! ## Evaluations with a state -/

/-- A relation between states beside the store, which stays when environments are added. -/
structure Kept (σ : Type) where
  rel : Nat → σ → σ → Prop
  mono : ∀ {n m x x'}, n ≤ m → rel n x x' → rel m x x'

/-- Evaluations that take related states to related states. -/
def StateRel {σ α β : Type} (W : World) (S : Kept σ) (n : Nat) (R : Nat → α → β → Prop)
    (A : StateT σ Eval α) (B : Nat → StateT σ Eval β) : Prop :=
  ∀ x x', S.rel n x x' →
    EvalRel W n (fun m y y' => R m y.1 y'.1 ∧ S.rel m y.2 y'.2) (A x) fun k => B k x'

namespace StateRel

variable {σ α β γ δ : Type} {S : Kept σ} {R : Nat → α → β → Prop} {R' : Nat → γ → δ → Prop}
  {A : StateT σ Eval α} {B : Nat → StateT σ Eval β}

protected lemma bind {f : α → StateT σ Eval γ} {g : Nat → β → StateT σ Eval δ}
    (h : StateRel W S n R A B)
    (h' : ∀ m ≥ n, ∀ a b, R m a b → StateRel W S m R' (f a) fun k => g k b) :
    StateRel W S n R' (A >>= f) fun k => B k >>= g k :=
  fun x x' hx => EvalRel.bind (h x x' hx) fun m hm _ _ hy => h' m hm _ _ hy.1 _ _ hy.2

lemma weaken {R'' : Nat → α → β → Prop} (h : StateRel W S n R A B)
    (hR : ∀ m ≥ n, ∀ a b, R m a b → R'' m a b) : StateRel W S n R'' A B :=
  fun x x' hx => (h x x' hx).weaken fun m hm _ _ hy => ⟨hR m hm _ _ hy.1, hy.2⟩

/-- What follows the same answer on both sides. -/
lemma bind_same {B : Nat → StateT σ Eval α} {f : α → StateT σ Eval γ}
    {g : Nat → α → StateT σ Eval δ} (h : StateRel W S n (fun _ => Eq) A B)
    (h' : ∀ m ≥ n, ∀ a, StateRel W S m R' (f a) fun k => g k a) :
    StateRel W S n R' (A >>= f) fun k => B k >>= g k := by
  refine h.bind fun m hm a b hab => ?_
  subst hab
  exact h' m hm a

protected lemma pure {a : α} {b : β} (h : ∀ m ≥ n, R m a b) :
    StateRel W S n R (pure a) fun _ => pure b :=
  fun _ _ hx => EvalRel.pure fun m hm => ⟨h m hm, S.mono hm hx⟩

/-- Evaluations that leave the states alone. -/
lemma of_lift {E : Eval α} {F : Nat → Eval β} (h : EvalRel W n R E F)
    (hA : ∀ x s, A x s = match E s with
      | .ok a s => .ok (a, x) s
      | .error e s => .error e s)
    (hB : ∀ k x s, B k x s = match F k s with
      | .ok b s => .ok (b, x) s
      | .error e s => .error e s) : StateRel W S n R A B := by
  intro x x' hx s t hst hn
  have hsettles : ∀ {r}, Settles F t r → Settles (fun k => B k x') t
      (match r with
        | .ok a s => .ok (a, x') s
        | .error e s => .error e s) := by
    rintro r ⟨m, hm⟩
    refine ⟨m, fun k hk => ?_⟩
    dsimp only
    rw [hB, hm k hk]
    cases r <;> rfl
  have hm := h s t hst hn
  rw [hA]
  revert hm
  generalize E s = r
  intro hm
  cases hm with
  | excused hr hh =>
    subst hr
    exact .excused rfl hh
  | dropped hB he => exact .dropped (hsettles hB) he
  | same hB hr =>
    refine .same (hsettles hB) ?_
    cases hr with
    | ok hab hst' hs ht => exact .ok ⟨hab, S.mono (Nat.le_trans hn hs.size) hx⟩ hst' hs ht
    | error hh hst' hs ht => exact .error hh hst' hs ht

end StateRel

end CallByNeed
