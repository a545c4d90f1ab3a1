import CallByNeed.Proofs.Eval.Inquiry
import CallByNeed.Proofs.Plain.Changes
import Mathlib.Data.ENat.Basic
import Mathlib.Data.Prod.Lex

/-!
# Orderly evaluations

An orderly evaluation asks for nested evaluations only of promises, of expressions in environments
that are there, and of compiled units, each of a smaller rank than its own (`Task.rank`); it changes
the store as a history says, and its value is ordinary. The rank is made of the levels that are left,
the promises that wait of those that may be bound anywhere, the environment, and the size of the
expression: what is not evaluated one level deeper is what such a promise puts off, or is evaluated in
an environment with a smaller number, or is smaller.

The rules here say of an evaluation begun in a store what it asks for and what comes of it
(`Conducts`). Those for the functions that all evaluators share come first.
-/

namespace CallByNeed

/-! ## Ranks -/

/-- The levels that are left, the number of promises that wait, the number of an environment, the size
of an expression. -/
abbrev Rank := Nat ×ₗ Nat ×ₗ Nat ×ₗ ℕ∞

/-- No environment is below the global one. -/
lemma lowest {env : EnvId} {size : ℕ∞} (hsize : 0 < size) : 0 < env ∨ 0 = env ∧ 0 < size :=
  (Nat.eq_zero_or_pos env).elim (fun he => .inr ⟨he.symm, hsize⟩) .inl

section

variable [Inherited]

/-- The rank of evaluations in an environment of expressions of some size. -/
noncomputable def rankOf (limit : Nat) (s : Store) (env : EnvId) (size : ℕ∞) : Rank :=
  toLex (limit - s.depth, toLex (s.unforced, toLex (env, size)))

/-- The rank of what is put off, once its evaluation has begun. -/
noncomputable def Suspension.rank (limit : Nat) (s : Store) (x : Suspension) : Rank :=
  x.env?.elim (rankOf limit s 0 0) fun env => rankOf limit s env ⊤

/-- The rank of a task. Promises and units count for more than all expressions in their
environment. -/
noncomputable def Task.rank (limit : Nat) (s : Store) : Task → Rank
  | .force p => (s.pending? p).elim (rankOf limit s 0 0) fun x => x.rank limit (s.begin p x)
  | .eval env e => rankOf limit s env (sizeOf e : Nat)
  | .execute _ env => rankOf limit s env ⊤

end

/-- The task is one that evaluations ask for. -/
def Task.Proper (s : Store) : Task → Prop
  | .force _ => True
  | .eval env _ => env < s.environments.size
  | .execute u env => u.Compiled ∧ env < s.environments.size

/-! ## Contracts -/

section

variable [Inherited]

/-- What an evaluation begun in a store comes to: a history, and a value of which something is true in
the store at its end. -/
inductive Store.Yields {α : Type} (s : Store) (Q : α → Store → Prop) : Result α → Prop
  | ok {a : α} {t : Store} {fs : Frames} (h : s.Changes fs t) (ha : Q a t) : Yields s Q (.ok a t)
  | error {e : Halt} {t : Store} {fs : Frames} (h : s.Changes fs t) : Yields s Q (.error e t)

/-- The value is ordinary. -/
def Value.PlainIn (v : Value) (s : Store) : Prop := v.Plain s.environments.size

/-- Proper tasks of smaller rank may be asked for, and have ordinary values. -/
noncomputable def Contract.orderly (limit : Nat) (s₀ : Store) (r : Rank) : Contract where
  may τ s := (∃ fs, s₀.Reached fs s) ∧ τ.Proper s ∧ τ.rank limit s < r
  gives _ s := s.Yields Value.PlainIn

/-- What is done in a store keeps to the contract and comes to a history and a value. -/
def Conducts {α : Type} (C : Contract) (s : Store) (act : Host → Eval α) (Q : α → Store → Prop) :
    Prop := Inquiry C (s.Yields Q) fun H => act H s

/-- The rank leaves room for evaluations in an environment of expressions below some size. -/
structure Room (limit : Nat) (s₀ : Store) (r : Rank) (env : EnvId) (size : ℕ∞) (s : Store) :
    Prop where
  reached : ∃ fs, s₀.Reached fs s
  inside : env < s.environments.size
  rank : rankOf limit s env size ≤ r

end

section

variable [Inherited] {α β : Type} {limit : Nat} {s₀ s t : Store} {r : Rank} {C : Contract}
  {env : EnvId} {size : ℕ∞} {Q : α → Store → Prop} {R : β → Store → Prop} {fs : Frames}

/-! ## Composing evaluations -/

lemma Store.Yields.after {res : Result α} (h : s.Changes fs t) (h' : t.Yields Q res) :
    s.Yields Q res := by
  cases h' with
  | ok hc ha => exact .ok (h.trans hc) ha
  | error hc => exact .error (h.trans hc)

namespace Conducts

/-- What comes of it on a host that keeps the contract. -/
lemma yields {act : Host → Eval α} (h : Conducts C s act Q) {H : Host} (hH : C.Kept H) :
    s.Yields Q (act H s) := Inquiry.holds h hH

/-- A value, with the history that it comes of. -/
lemma ok {act : Host → Eval α} (h : Conducts C s act Q) {H : Host} (hH : C.Kept H) {a : α}
    (hr : act H s = .ok a t) : ∃ fs, s.Changes fs t ∧ Q a t := by
  have hyields := h.yields hH
  rw [hr] at hyields
  cases hyields with
  | ok hc ha => exact ⟨_, hc, ha⟩

/-- Something that asks for nothing. -/
lemma of_yields {act : Eval α} (h : s.Yields Q (act s)) : Conducts C s (fun _ => act) Q := .done h

protected lemma pure {a : α} (h : Q a s) : Conducts C s (fun _ => Pure.pure a) Q :=
  of_yields (.ok (.nothing s) h)

lemma throw (e : Halt) : Conducts C s (fun _ => (MonadExcept.throw e : Eval α)) Q :=
  of_yields (.error (.nothing s))

lemma fail (e : EvalError) : Conducts C s (fun _ => (Eval.fail e : Eval α)) Q := throw (.error e)

lemma ofExcept {res : Except EvalError α} (h : ∀ a, res = .ok a → Q a s) :
    Conducts C s (fun _ => Eval.ofExcept res) Q := by
  cases res with
  | ok a => exact Conducts.pure (h a rfl)
  | error e => exact fail e

/-- One evaluation after the other. -/
protected lemma bind {act : Host → Eval α} {next : Host → α → Eval β} (h : Conducts C s act Q)
    (h' : ∀ a t fs, s.Changes fs t → Q a t → Conducts C t (fun H => next H a) R) :
    Conducts C s (fun H => act H >>= next H) R := by
  refine Inquiry.of_eq (h.andThen (fun res H => match res with
    | .ok a t => next H a t
    | .error e t => .error e t) (fun _ t => ⟨t, fun _ => rfl⟩) fun res hres => ?_) fun H => Eval.bind_apply _ _ s
  cases hres with
  | ok hc ha => exact (h' _ _ _ hc ha).mono fun _ hres => hres.after hc
  | error hc => exact .done (.error hc)

/-- Reading the store first. -/
lemma read {next : Host → Store → Eval β} (h : Conducts C s (fun H => next H s) R) :
    Conducts C s (fun H => get >>= next H) R := h

lemma mono {Q' : α → Store → Prop} {act : Host → Eval α} (h : Conducts C s act Q)
    (hQ : ∀ a t fs, s.Changes fs t → Q a t → Q' a t) : Conducts C s act Q' :=
  Inquiry.mono h fun res hres => by
    cases hres with
    | ok hc ha => exact .ok hc (hQ _ _ _ hc ha)
    | error hc => exact .error hc

/-- The evaluation that the host carries out. -/
lemma ask {τ : Task} (h : (Contract.orderly limit s₀ r).may τ s) :
    Conducts (.orderly limit s₀ r) s (fun H => H τ) Value.PlainIn :=
  Inquiry.question h fun _ hres => hres

end Conducts

/-! ## Ranks of nested evaluations -/

lemma rankOf_lt_rankOf {s t : Store} {env env' : EnvId} {size size' : ℕ∞}
    (hdepth : t.depth = s.depth)
    (h : t.unforced < s.unforced ∨
      t.unforced ≤ s.unforced ∧ (env' < env ∨ env' = env ∧ size' < size)) :
    rankOf limit t env' size' < rankOf limit s env size := by
  unfold rankOf
  simp only [Prod.Lex.toLex_lt_toLex]
  refine .inr ⟨congrArg (limit - ·) hdepth, ?_⟩
  obtain h | ⟨hle, h⟩ := h
  · exact .inl h
  · exact (Nat.lt_or_eq_of_le hle).imp_right fun heq => ⟨heq, h⟩

/-- What follows on has no greater rank. -/
lemma rankOf_le_rankOf {s t : Store} (hdepth : t.depth = s.depth) (h : t.unforced ≤ s.unforced) :
    rankOf limit t env size ≤ rankOf limit s env size := by
  unfold rankOf
  rw [Prod.Lex.toLex_le_toLex, Prod.Lex.toLex_le_toLex]
  exact .inr ⟨congrArg (limit - ·) hdepth, (Nat.lt_or_eq_of_le h).imp_right fun heq =>
    ⟨heq, le_refl _⟩⟩

/-- What a promise puts off that is of something below the environment. -/
lemma Store.Below.rank_lt {p : PromiseId} {x : Suspension} (h : s.Below env p) (hsize : 0 < size)
    (hp : s.promises[p]?.map Promise.status = some (.pending x)) :
    x.rank limit (s.begin p x) < rankOf limit s env size := by
  unfold Suspension.rank
  cases henv : x.env? with
  | none => exact rankOf_lt_rankOf rfl (.inr ⟨Store.unforced_begin_le, lowest hsize⟩)
  | some env' =>
    obtain hlt | hle := Nat.lt_or_ge p Inherited.count
    · exact rankOf_lt_rankOf rfl (.inl (Store.unforced_begin_lt hlt hp))
    · have hbelow := h.below hle x env' (Store.suspension?_of_pending hp) henv
      exact rankOf_lt_rankOf rfl (.inr ⟨Store.unforced_begin_le, .inl hbelow⟩)

namespace Room

variable {p : PromiseId} {e : Expr} {u : CodeUnit} {env' : EnvId}

lemma changes (h : Room limit s₀ r env size s) (h' : s.Changes fs t) :
    Room limit s₀ r env size t := by
  obtain ⟨gs, hreached⟩ := h.reached
  have hleads := h'.leads hreached.proper
  refine ⟨⟨_, hreached.changes h'⟩, Nat.lt_of_lt_of_le h.inside hleads.before.environments, ?_⟩
  exact le_trans (rankOf_le_rankOf hleads.depth (hleads.unforced_le hreached.proper)) h.rank

lemma proper (h : Room limit s₀ r env size s) : s.Proper := by
  obtain ⟨_, hreached⟩ := h.reached
  exact hreached.proper

/-- One evaluation after the other: the room stays. -/
lemma bind {act : Host → Eval α} {next : Host → α → Eval β} (h : Room limit s₀ r env size s)
    (hact : Conducts (.orderly limit s₀ r) s act Q)
    (hnext : ∀ a t fs, s.Changes fs t → Room limit s₀ r env size t → Q a t →
      Conducts (.orderly limit s₀ r) t (fun H => next H a) R) :
    Conducts (.orderly limit s₀ r) s (fun H => act H >>= next H) R :=
  hact.bind fun a t fs ht ha => hnext a t fs ht (h.changes ht) ha

/-- A promise of something below the environment may be forced. -/
lemma may_force (h : Room limit s₀ r env size s) (hsize : 0 < size) (hp : s.Below env p) :
    (Contract.orderly limit s₀ r).may (.force p) s := by
  refine ⟨h.reached, trivial, lt_of_lt_of_le ?_ h.rank⟩
  dsimp only [Task.rank]
  cases hx : s.pending? p with
  | some x => exact hp.rank_lt hsize (Store.pending?_eq_some.1 hx)
  | none => exact rankOf_lt_rankOf rfl (.inr ⟨le_refl _, lowest hsize⟩)

/-- An expression that is small enough may be evaluated. -/
lemma may_eval (h : Room limit s₀ r env size s) (he : (sizeOf e : Nat) < size) :
    (Contract.orderly limit s₀ r).may (.eval env e) s :=
  ⟨h.reached, h.inside,
    lt_of_lt_of_le (rankOf_lt_rankOf rfl (.inr ⟨le_refl _, .inr ⟨rfl, he⟩⟩)) h.rank⟩

/-- A unit may be executed one level deeper. -/
lemma may_execute (h : Room limit s₀ r env size s) (hlimit : ¬ limit ≤ s.depth) (hu : u.Compiled)
    (henv : env' < s.environments.size) :
    (Contract.orderly limit s₀ r).may (.execute u env') { s with depth := s.depth + 1 } := by
  obtain ⟨gs, hreached⟩ := h.reached
  refine ⟨⟨gs, hreached.enters⟩, ⟨hu, henv⟩, lt_of_lt_of_le ?_ h.rank⟩
  unfold Task.rank rankOf
  rw [Prod.Lex.toLex_lt_toLex]
  refine .inl ?_
  dsimp only
  omega

end Room

/-! ## The store -/

namespace Conducts

variable {name : Symbol} {v : Value}

/-- Looking up a variable other than `...`. -/
lemma findVariable (hs : s.Proper) (hname : name.isEllipsis = false) :
    Conducts C s (fun _ => Eval.findVariable env name) fun v t => v.Lazy t env := by
  refine .read ?_
  cases hv : s.find? env name with
  | none => exact fail _
  | some v => exact .pure (hs.lazy_of_find? hv hname)

/-- Looking up the arguments bound to `...`. -/
lemma findDots (hs : s.Proper) :
    Conducts C s (fun _ => Eval.findDots env) fun args t => ArgList.Lazy t env args := by
  unfold Eval.findDots Eval.findVariable
  simp only [bind_assoc]
  refine .read ?_
  cases hv : s.find? env .ellipsis with
  | none => exact fail _
  | some v =>
    cases v with
    | dots args => exact .pure (hs.lazy_of_dots hv)
    | _ => exact fail _

/-- Setting a variable to an ordinary value. -/
lemma setVariable (hv : v.PlainIn s) :
    Conducts C s (fun _ => Eval.setVariable env name v) fun _ _ => True :=
  of_yields (.ok (.assign env name hv) trivial)

/-- Making a promise. -/
lemma promise {x : Suspension} (hx : x.Proper s) (henv : env < s.environments.size)
    (hbelow : ∀ env', x.env? = some env' → env' ≤ env) :
    Conducts C s (fun _ => Eval.promise x) fun v t => v.Lazy t t.environments.size :=
  of_yields (.ok (.suspend hx) (.promise (s.below_addPromise fun env' h =>
    Nat.lt_of_le_of_lt (hbelow env' h) henv)))

/-! ## Promises and functions -/

lemma force (h : Room limit s₀ r env size s) (hsize : 0 < size) (hv : v.Lazy s env) :
    Conducts (.orderly limit s₀ r) s (fun H => H.force v) Value.PlainIn := by
  cases hv with
  | plain hv =>
    cases v with
    | promise p => exact hv.elim
    | _ => exact .pure hv
  | promise hp => exact .ask (h.may_force hsize hp)

/-- A variable that is evaluated. -/
lemma lookup (h : Room limit s₀ r env size s) (hsize : 0 < size) (hname : name.isEllipsis = false) :
    Conducts (.orderly limit s₀ r) s (fun H => do H.force (← Eval.findVariable env name))
      Value.PlainIn :=
  h.bind (findVariable h.proper hname) fun _ _ _ _ h hv => force h hsize hv

lemma functionIn (hsize : 0 < size) : ∀ {envs : List EnvId} {s : Store},
    Room limit s₀ r env size s → (∀ e ∈ envs, e ≤ env) →
      Conducts (.orderly limit s₀ r) s (fun H => H.functionIn name envs) Value.PlainIn
  | [], _, _, _ => fail _
  | e :: envs, s, h, henvs => by
    obtain ⟨he, henvs⟩ := List.forall_mem_cons.1 henvs
    refine .read ?_
    cases hv : s.local? e name with
    | none => exact functionIn hsize h henvs
    | some v =>
      have hrest : ∀ (w : Value) {t : Store} {fs : Frames}, s.Changes fs t →
          (w.category?.isSome → w.PlainIn t) →
          Conducts (.orderly limit s₀ r) t (fun H => if w.category?.isSome then Pure.pure w
            else H.functionIn name envs) Value.PlainIn := by
        intro w t fs ht hw
        split
        · rename_i hcategory
          exact .pure (hw hcategory)
        · exact functionIn hsize (h.changes ht) henvs
      cases h.proper.bound_of_local? hv with
      | lazy hv =>
        exact (force h hsize (hv.mono (.refl s) he)).bind fun w t fs ht hw =>
          hrest w ht fun _ => hw
      | @dots args => exact hrest (.dots args) (.nothing s) fun hcategory => by cases hcategory

/-- The nearest function of a name. -/
lemma findFunction (h : Room limit s₀ r env size s) (hsize : 0 < size) :
    Conducts (.orderly limit s₀ r) s (fun H => H.findFunction env name) Value.PlainIn :=
  .read (functionIn hsize h fun _ he => h.proper.le_of_mem_chain he)

/-- Changing the store once an evaluation is over that was begun in another store. -/
lemma settled {m : Store} {act : Host → Eval α} {settle : Except Halt α → Store → Store}
    {Q' : α → Store → Prop} (h : Conducts C m act Q)
    (hok : ∀ a t fs, m.Changes fs t → Q a t → s.Yields Q' (.ok a (settle (.ok a) t)))
    (herror : ∀ e t fs, m.Changes fs t → s.Yields Q' (.error e (settle (.error e) t))) :
    Inquiry C (s.Yields Q') fun H => (act H).settled settle m := by
  refine Inquiry.of_eq (h.andThen (fun res _ => match res with
    | .ok a t => .ok a (settle (.ok a) t)
    | .error e t => .error e (settle (.error e) t)) (fun _ _ => ⟨_, fun _ => rfl⟩)
      fun res hres => ?_) fun H =>
      Eval.settled_apply _ _ _
  cases hres with
  | ok hc ha => exact .done (hok _ _ _ hc ha)
  | error hc => exact .done (herror _ _ _ hc)

/-- One level deeper. -/
lemma enter {act : Host → Eval α} (h : ¬ limit ≤ s.depth →
      Conducts C { s with depth := s.depth + 1 } act Q)
    (hQ : ∀ a (t : Store), Q a t → Q a { t with depth := t.depth - 1 }) :
    Conducts C s (fun H => Eval.enter limit (act H)) Q := by
  by_cases hlimit : limit ≤ s.depth
  · exact Inquiry.of_eq (.done (.error (.nothing s))) fun H => Eval.enter_of_le _ hlimit
  · exact Inquiry.of_eq (settled (h hlimit) (fun _ _ _ hc ha => .ok hc.deeper (hQ _ _ ha))
      fun _ _ _ hc => .error hc.deeper) fun H => Eval.enter_of_lt _ hlimit

/-- A unit that is executed one level deeper. -/
lemma executeNested {u : CodeUnit} {env' : EnvId} (h : Room limit s₀ r env size s)
    (hu : u.Compiled) (henv : env' < s.environments.size) :
    Conducts (.orderly limit s₀ r) s (fun H => H.executeNested limit u env') Value.PlainIn :=
  enter (fun hlimit => .ask (h.may_execute hlimit hu henv)) fun _ _ hv => hv

/-- Applying a closure. -/
lemma applyClosure {f : FunctionUnit} {env' : EnvId} {call : Call} {args : ArgList}
    (h : Room limit s₀ r env size s) (hf : f.Compiled) (henv : env' < s.environments.size)
    (hargs : ArgList.Lazy s s.environments.size args) :
    Conducts (.orderly limit s₀ r) s (fun H => CallByNeed.applyClosure limit H f env' call args)
      Value.PlainIn := by
  have hbind : Conducts (.orderly limit s₀ r) s (fun _ => bindArguments f env' call args)
      fun frame t => frame < t.environments.size := by
    refine of_yields ?_
    cases hb : bindArguments f env' call args s with
    | ok frame t =>
      obtain ⟨rfl, hfills⟩ := fills_of_bindArguments h.proper hf henv hargs hb
      refine .ok (.apply hf henv hargs hb) ?_
      rw [hfills.size, s.size_addChild]
      exact Nat.lt_succ_self _
    | error e t =>
      obtain rfl := bindArguments_error hb
      exact .error (.nothing _)
  exact h.bind hbind fun frame t fs _ h hframe => executeNested h hf.body hframe

end Conducts

end

end CallByNeed
