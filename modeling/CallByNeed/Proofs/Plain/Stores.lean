import CallByNeed.Proofs.Eval.Promises
import CallByNeed.Proofs.Plain.Values
import Mathlib.Data.Set.Card

/-!
# Where promises are

In a proper store (`Store.Proper`) a variable is bound to an ordinary value or to a promise, and only
`...` to a list of these. Environments lie inside those with smaller numbers. So do the promises that
are bound in them: what such a promise puts off, unless it is evaluated one level deeper anyway, is
evaluated in an environment with a smaller number than the one it is bound in (`Value.Lazy`). Since
environments are numbered in the order in which they are made, no chain of promises comes back to
where it began.

This need not hold of promises that are there from the start (`Inherited`). No more of these are made,
and while one is forced one less of them is pending (`Store.unforced`).
-/

namespace CallByNeed

/-! ## Values that are bound -/

/-- The number of promises that may be bound in any environments whatever: those with the smallest
numbers. -/
class Inherited where
  count : Nat

/-- There are none, unless something else is said. -/
instance (priority := low) : Inherited := ⟨0⟩

/-- Where what is put off is evaluated, if not one level deeper. -/
def Suspension.env? : Suspension → Option EnvId
  | .variable _ env | .interpreted _ env => some env
  | .compiled .. | .missing _ => none

/-- What a promise of the store puts off. -/
def Store.suspension? (s : Store) (p : PromiseId) : Option Suspension :=
  s.promises[p]?.bind fun q => q.status.suspension?

section

variable [Inherited]

/-- The promise is there, and what it puts off is evaluated one level deeper or in an environment
below the bound. -/
structure Store.Below (s : Store) (bound : EnvId) (p : PromiseId) : Prop where
  lt : p < s.promises.size
  below : Inherited.count ≤ p →
    ∀ x env, s.suspension? p = some x → x.env? = some env → env < bound

/-- The value is ordinary, or a promise of something below the bound. -/
inductive Value.Lazy (s : Store) (bound : EnvId) : Value → Prop
  | plain {v : Value} (h : v.Plain s.environments.size) : Lazy s bound v
  | promise {p : PromiseId} (h : s.Below bound p) : Lazy s bound (.promise p)

/-- The arguments are ordinary values or promises. -/
def ArgList.Lazy (s : Store) (bound : EnvId) (args : ArgList) : Prop :=
  ∀ a ∈ args, a.value.Lazy s bound

/-- The value may be bound to a name in an environment: a list of arguments to `...` only. -/
inductive Value.Bound (s : Store) (env : EnvId) (name : Symbol) : Value → Prop
  | lazy {v : Value} (h : v.Lazy s env) : Bound s env name v
  | dots {args : ArgList} (hname : name = .ellipsis) (h : ArgList.Lazy s env args) :
    Bound s env name (.dots args)

end

/-! ## Proper stores -/

/-- What is put off is evaluated in an environment that is there, and is compiled, or an expression,
or a variable other than `...`. -/
def Suspension.Proper (s : Store) : Suspension → Prop
  | .variable name env => name.isEllipsis = false ∧ env < s.environments.size
  | .compiled u env => u.Compiled ∧ env < s.environments.size
  | .interpreted _ env => env < s.environments.size
  | .missing _ => True

/-- The value of a promise is ordinary. -/
def Status.Proper (s : Store) : Status → Prop
  | .pending x | .forcing x => x.Proper s
  | .forced v => v.Plain s.environments.size

section

variable [Inherited]

/-- An environment lies inside those with smaller numbers, and so do the promises in it. -/
structure Environment.Proper (s : Store) (env : EnvId) (E : Environment) : Prop where
  outer : ∀ o ∈ E.outer, o < env
  vars : ∀ x v, E.vars.lookup x = some v → v.Bound s env x

/-- Promises and lists of arguments stand only where they are to be forced or passed on. -/
structure Store.Proper (s : Store) : Prop where
  environments : ∀ (e : EnvId) (E : Environment), s.environments[e]? = some E → E.Proper s e
  promises : ∀ (p : PromiseId) (q : Promise), s.promises[p]? = some q → q.status.Proper s
  inherited : Inherited.count ≤ s.promises.size

end

/-! ## Promises that wait to be forced -/

/-- What a promise puts off that waits to be forced. -/
def Store.pending? (s : Store) (p : PromiseId) : Option Suspension :=
  match s.promises[p]?.map Promise.status with
  | some (.pending x) => some x
  | _ => none

/-- The promise is there and waits to be forced. -/
def Store.Pending (s : Store) (p : PromiseId) : Prop :=
  ∃ x, s.promises[p]?.map Promise.status = some (.pending x)

/-- How many of the promises wait to be forced that may be bound anywhere. -/
noncomputable def Store.unforced [Inherited] (s : Store) : Nat :=
  {p | p < Inherited.count ∧ s.Pending p}.ncard

/-! ## Later stores -/

/-- Environments and promises that are there stay there, and a promise puts off what it did if it
still puts off something. -/
structure Store.Before (s t : Store) : Prop where
  environments : s.environments.size ≤ t.environments.size
  promises : s.promises.size ≤ t.promises.size
  suspension : ∀ p x, p < s.promises.size → t.suspension? p = some x → s.suspension? p = some x

variable {s m t : Store} {bound env : EnvId} {name : Symbol} {v : Value}

lemma Store.pending?_eq_some {p : PromiseId} {x : Suspension} :
    s.pending? p = some x ↔ s.promises[p]?.map Promise.status = some (.pending x) := by
  unfold pending?
  split
  · rename_i h
    rw [h, Option.some.injEq, Option.some.injEq, Status.pending.injEq]
  · rename_i h
    exact ⟨nofun, fun hx => absurd hx (h x)⟩

namespace Store.Before

lemma refl (s : Store) : s.Before s := ⟨Nat.le_refl _, Nat.le_refl _, fun _ _ _ h => h⟩

lemma trans (h : s.Before m) (h' : m.Before t) : s.Before t where
  environments := Nat.le_trans h.environments h'.environments
  promises := Nat.le_trans h.promises h'.promises
  suspension p x hp hx :=
    h.suspension p x hp (h'.suspension p x (Nat.lt_of_lt_of_le hp h.promises) hx)

/-- The promises are the same. -/
lemma of_promises (h : s.environments.size ≤ t.environments.size) (hp : t.promises = s.promises) :
    s.Before t where
  environments := h
  promises := Nat.le_of_eq (congrArg Array.size hp).symm
  suspension p x _ hx := by rwa [suspension?, ← hp]

/-- A promise is moved on that puts off what it did. -/
lemma modify {f : Promise → Promise} {p : PromiseId}
    (hf : ∀ q x, s.promises[p]? = some q → (f q).status.suspension? = some x →
      q.status.suspension? = some x) : s.Before { s with promises := s.promises.modify p f } where
  environments := Nat.le_refl _
  promises := Nat.le_of_eq Array.size_modify.symm
  suspension p' x _ hx := by
    unfold suspension? at hx ⊢
    dsimp only at hx
    rw [Array.getElem?_modify] at hx
    split at hx
    · rename_i hp
      subst hp
      cases hq : s.promises[p]? with
      | none =>
        rw [hq] at hx
        cases hx
      | some q =>
        rw [hq] at hx
        exact hf q x hq hx
    · exact hx

end Store.Before

section

variable [Inherited]

lemma Store.Below.mono (h : s.Before t) {p : PromiseId} {bound' : EnvId} (hle : bound ≤ bound')
    (hp : s.Below bound p) : t.Below bound' p where
  lt := Nat.lt_of_lt_of_le hp.lt h.promises
  below hnew x env hx henv :=
    Nat.lt_of_lt_of_le (hp.below hnew x env (h.suspension p x hp.lt hx) henv) hle

lemma Value.Lazy.mono (h : s.Before t) {bound' : EnvId} (hle : bound ≤ bound')
    (hv : v.Lazy s bound) : v.Lazy t bound' := by
  cases hv with
  | plain hv => exact .plain (hv.mono h.environments)
  | promise hp => exact .promise (hp.mono h hle)

lemma ArgList.Lazy.mono {args : ArgList} (h : s.Before t) {bound' : EnvId} (hle : bound ≤ bound')
    (hargs : ArgList.Lazy s bound args) : ArgList.Lazy t bound' args :=
  fun a ha => (hargs a ha).mono h hle

lemma Value.Bound.mono (h : s.Before t) (hv : v.Bound s env name) : v.Bound t env name := by
  cases hv with
  | lazy hv => exact .lazy (hv.mono h (Nat.le_refl _))
  | dots hname hargs => exact .dots hname (hargs.mono h (Nat.le_refl _))

end

/-- Fewer of the promises wait if none has come to do so. -/
lemma Store.unforced_le [Inherited]
    (h : ∀ p, p < Inherited.count → t.Pending p → s.Pending p) : t.unforced ≤ s.unforced :=
  Set.ncard_le_ncard (fun p hp => ⟨hp.1, h p hp.1 hp.2⟩)
    ((Set.finite_lt_nat Inherited.count).subset fun _ hp => hp.1)

lemma Suspension.Proper.mono (h : s.Before t) {x : Suspension} (hx : x.Proper s) : x.Proper t := by
  cases x with
  | «variable» name env => exact ⟨hx.1, Nat.lt_of_lt_of_le hx.2 h.environments⟩
  | compiled u env => exact ⟨hx.1, Nat.lt_of_lt_of_le hx.2 h.environments⟩
  | interpreted e env => exact Nat.lt_of_lt_of_le hx h.environments
  | missing name => trivial

lemma Status.Proper.mono (h : s.Before t) {x : Status} (hx : x.Proper s) : x.Proper t := by
  cases x with
  | pending x | forcing x => exact Suspension.Proper.mono h hx
  | forced v => exact Value.Plain.mono h.environments hx

/-! ## Reading a proper store -/

section

variable [Inherited]

namespace Store.Proper

/-- The environments around one have no greater numbers. -/
lemma le_of_mem_chain (h : s.Proper) {e : EnvId} (he : e ∈ s.chain env) : e ≤ env := by
  unfold chain at he
  split at he
  · rename_i E hE
    rcases List.mem_cons.1 he with rfl | he
    · exact Nat.le_refl _
    · exact Nat.le_of_lt ((h.environments env E hE).outer e he)
  · exact Nat.le_of_eq (List.mem_singleton.1 he)

lemma bound_of_local? (h : s.Proper) (hv : s.local? env name = some v) : v.Bound s env name := by
  unfold local? at hv
  split at hv
  · rename_i E hE
    exact (h.environments env E hE).vars name v hv
  · cases hv

lemma bound_of_find? (h : s.Proper) (hv : s.find? env name = some v) :
    ∃ e ≤ env, v.Bound s e name := by
  obtain ⟨e, he, hv⟩ := List.exists_of_findSome?_eq_some hv
  exact ⟨e, h.le_of_mem_chain he, h.bound_of_local? hv⟩

/-- A variable other than `...` is bound to an ordinary value or to a promise. -/
lemma lazy_of_find? (h : s.Proper) (hv : s.find? env name = some v)
    (hname : name.isEllipsis = false) : v.Lazy s env := by
  obtain ⟨e, he, hv⟩ := h.bound_of_find? hv
  cases hv with
  | lazy hv => exact hv.mono (.refl s) he
  | dots hellipsis =>
    rw [hellipsis] at hname
    cases hname

/-- So are the arguments bound to `...`. -/
lemma lazy_of_dots (h : s.Proper) {args : ArgList} (hv : s.find? env name = some (.dots args)) :
    ArgList.Lazy s env args := by
  obtain ⟨e, he, hv⟩ := h.bound_of_find? hv
  cases hv with
  | lazy hv =>
    cases hv with
    | plain hv => cases hv
  | dots _ hargs => exact hargs.mono (.refl s) he

/-! ## Changing a proper store -/

/-- What is not as it was is proper. -/
lemma of_before (h : s.Proper) (hb : s.Before t)
    (henv : ∀ (e : EnvId) (E : Environment), t.environments[e]? = some E →
      s.environments[e]? = some E ∨ E.Proper t e)
    (hp : ∀ (p : PromiseId) (q : Promise), t.promises[p]? = some q →
      s.promises[p]? = some q ∨ q.status.Proper t) :
    t.Proper where
  environments e E hE := by
    rcases henv e E hE with hE | hE
    · have hproper := h.environments e E hE
      exact ⟨hproper.outer, fun x v hv => (hproper.vars x v hv).mono hb⟩
    · exact hE
  promises p q hq := by
    rcases hp p q hq with hq | hq
    · exact (h.promises p q hq).mono hb
    · exact hq
  inherited := Nat.le_trans h.inherited hb.promises

/-- Only environments and promises matter. -/
lemma of_eq (h : s.Proper) (henv : t.environments = s.environments)
    (hp : t.promises = s.promises) : t.Proper :=
  h.of_before (.of_promises (Nat.le_of_eq (congrArg Array.size henv).symm) hp)
    (fun _ _ hE => .inl (henv ▸ hE)) fun _ _ hq => .inl (hp ▸ hq)

end Store.Proper

end

lemma Store.before_set (s : Store) (env : EnvId) (name : Symbol) (v : Value) :
    s.Before (s.set env name v) := .of_promises (Nat.le_of_eq (size_set s env name v).symm) rfl

lemma Store.before_addChild (s : Store) (env : EnvId) : s.Before (s.addChild env) :=
  .of_promises (by rw [size_addChild]; exact Nat.le_succ _) rfl

lemma Store.before_addPromise (s : Store) (q : Promise) : s.Before (s.addPromise q) where
  environments := Nat.le_refl _
  promises := by
    show _ ≤ (s.promises.push q).size
    rw [Array.size_push]
    exact Nat.le_succ _
  suspension p x hp hx := by
    unfold suspension? Store.addPromise at hx
    dsimp only at hx
    rwa [Array.getElem?_push, if_neg (Nat.ne_of_lt hp)] at hx

section

variable [Inherited]

/-- Setting a variable. -/
lemma Store.Proper.set (h : s.Proper) (hv : v.Bound s env name) : (s.set env name v).Proper := by
  have hb := s.before_set env name v
  refine h.of_before hb (fun e E hE => ?_) fun _ _ hq => .inl hq
  unfold Store.set at hE
  dsimp only at hE
  rw [Array.getElem?_modify] at hE
  split at hE
  · rename_i he
    subst he
    obtain ⟨E', hE', rfl⟩ := Option.map_eq_some_iff.1 hE
    have hproper := h.environments env E' hE'
    refine .inr ⟨hproper.outer, fun x w hw => ?_⟩
    dsimp only at hw
    by_cases hx : x = name
    · subst hx
      rw [lookup_bindIn_same] at hw
      exact Option.some.inj hw ▸ hv.mono hb
    · rw [lookup_bindIn_other hx] at hw
      exact (hproper.vars x w hw).mono hb
  · exact .inl hE

/-- Making an environment inside one that is there. -/
lemma Store.Proper.addChild (h : s.Proper) (henv : env < s.environments.size) :
    (s.addChild env).Proper := by
  refine h.of_before (s.before_addChild env) (fun e E hE => ?_) fun _ _ hq => .inl hq
  unfold Store.addChild at hE
  dsimp only at hE
  rw [Array.getElem?_push] at hE
  split at hE
  · rename_i he
    subst he
    cases hE
    exact .inr ⟨fun o ho => Nat.lt_of_le_of_lt (h.le_of_mem_chain ho) henv, fun x w hw => by cases hw⟩
  · exact .inl hE

/-- Making a promise. -/
lemma Store.Proper.addPromise (h : s.Proper) {x : Suspension} (hx : x.Proper s) :
    (s.addPromise ⟨.pending x, 0⟩).Proper := by
  have hb := s.before_addPromise ⟨.pending x, 0⟩
  refine h.of_before hb (fun _ _ hE => .inl hE) fun p q hq => ?_
  unfold Store.addPromise at hq
  dsimp only at hq
  rw [Array.getElem?_push] at hq
  split at hq
  · cases hq
    exact .inr (hx.mono hb)
  · exact .inl hq

/-- The promise that was made puts off what it was made for. -/
lemma Store.below_addPromise (s : Store) {x : Suspension} (h : ∀ env, x.env? = some env → env < bound) :
    (s.addPromise ⟨.pending x, 0⟩).Below bound s.promises.size where
  lt := by
    show _ < (s.promises.push _).size
    rw [Array.size_push]
    exact Nat.lt_succ_self _
  below _ y env hy henv := by
    unfold suspension? Store.addPromise at hy
    dsimp only at hy
    rw [Array.getElem?_push_size] at hy
    cases hy
    exact h env henv

/-- Moving a promise on. -/
lemma Store.Proper.modify (h : s.Proper) {f : Promise → Promise} {p : PromiseId}
    (hb : s.Before { s with promises := s.promises.modify p f })
    (hf : ∀ q, s.promises[p]? = some q → (f q).status.Proper s) :
    Store.Proper { s with promises := s.promises.modify p f } := by
  refine h.of_before hb (fun _ _ hE => .inl hE) fun p' q hq => ?_
  dsimp only at hq
  rw [Array.getElem?_modify] at hq
  split at hq
  · rename_i hp
    subst hp
    obtain ⟨q', hq', rfl⟩ := Option.map_eq_some_iff.1 hq
    exact .inr ((hf q' hq').mono hb)
  · exact .inl hq

end

end CallByNeed
