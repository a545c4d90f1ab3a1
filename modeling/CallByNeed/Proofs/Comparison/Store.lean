import CallByNeed.Proofs.Comparison.Values

/-!
# Stores side by side

What is read from related stores is related, and changing both in the same way keeps them related.
Each operation on stores that evaluations use has its rule here.
-/

namespace CallByNeed

variable {W : World} {n m : Nat} {s t : Store}

/-! ## Arrays -/

namespace ArrayRel

variable {α β : Type} {R S : α → β → Prop} {as : Array α} {bs : Array β}

lemma getElem? (h : ArrayRel R as bs) (i : Nat) : Option.Rel R as[i]? bs[i]? := by
  by_cases hi : i < as.size
  · have ha := Array.getElem?_eq_getElem hi
    have hb := Array.getElem?_eq_getElem (h.size ▸ hi)
    rw [ha, hb]
    exact .some (h.entry i _ _ ha hb)
  · rw [Array.getElem?_eq_none (Nat.le_of_not_lt hi),
      Array.getElem?_eq_none (Nat.le_of_not_lt (h.size ▸ hi))]
    exact .none

lemma imp (h : ArrayRel R as bs) (hRS : ∀ a b, R a b → S a b) : ArrayRel S as bs :=
  ⟨h.size, fun i a b ha hb => hRS a b (h.entry i a b ha hb)⟩

lemma push (h : ArrayRel R as bs) {a : α} {b : β} (hab : R a b) :
    ArrayRel R (as.push a) (bs.push b) := by
  refine ⟨by rw [Array.size_push, Array.size_push, h.size], fun i x y hx hy => ?_⟩
  rw [Array.getElem?_push] at hx hy
  rw [← h.size] at hy
  by_cases hi : i = as.size
  · rw [if_pos hi] at hx hy
    cases hx
    cases hy
    exact hab
  · rw [if_neg hi] at hx hy
    exact h.entry i x y hx hy

lemma modify (h : ArrayRel R as bs) (i : Nat) {f : α → α} {g : β → β}
    (hfg : ∀ a b, R a b → R (f a) (g b)) : ArrayRel R (as.modify i f) (bs.modify i g) := by
  refine ⟨by rw [Array.size_modify, Array.size_modify, h.size], fun j x y hx hy => ?_⟩
  rw [Array.getElem?_modify] at hx hy
  by_cases hi : i = j
  · rw [if_pos hi] at hx hy
    obtain ⟨a, ha, rfl⟩ := Option.map_eq_some_iff.1 hx
    obtain ⟨b, hb, rfl⟩ := Option.map_eq_some_iff.1 hy
    exact hfg a b (h.entry j a b ha hb)
  · rw [if_neg hi] at hx hy
    exact h.entry j x y hx hy

lemma setIfInBounds (h : ArrayRel R as bs) (i : Nat) {a : α} {b : β} (hab : R a b) :
    ArrayRel R (as.setIfInBounds i a) (bs.setIfInBounds i b) := by
  refine ⟨by rw [Array.size_setIfInBounds, Array.size_setIfInBounds, h.size], fun j x y hx hy => ?_⟩
  rw [Array.getElem?_setIfInBounds] at hx hy
  rw [← h.size] at hy
  by_cases hi : i = j
  · rw [if_pos hi] at hx hy
    by_cases hlt : i < as.size
    · rw [if_pos hlt] at hx hy
      cases hx
      cases hy
      exact hab
    · rw [if_neg hlt] at hx
      cases hx
  · rw [if_neg hi] at hx hy
    exact h.entry j x y hx hy

end ArrayRel

/-! ## Reading and writing one store -/

namespace Store

@[simp] lemma size_set (s : Store) (env : EnvId) (name : Symbol) (v : Value) :
    (s.set env name v).environments.size = s.environments.size := Array.size_modify

@[simp] lemma size_addChild (s : Store) (env : EnvId) :
    (s.addChild env).environments.size = s.environments.size + 1 := Array.size_push _

lemma local?_set_of_ne_env (s : Store) {env e : EnvId} (he : e ≠ env) (name x : Symbol)
    (v : Value) : (s.set env name v).local? e x = s.local? e x := by
  unfold local? set
  rw [Array.getElem?_modify, if_neg (Ne.symm he)]

lemma local?_set_of_ne_name (s : Store) {name x : Symbol} (hx : x ≠ name) (env e : EnvId)
    (v : Value) : (s.set env name v).local? e x = s.local? e x := by
  unfold local? set
  rw [Array.getElem?_modify]
  by_cases he : env = e
  · rw [if_pos he]
    cases s.environments[e]? with
    | none => rfl
    | some E => exact lookup_bindIn_other hx v E.vars
  · rw [if_neg he]

lemma chain_set (s : Store) (env e : EnvId) (name : Symbol) (v : Value) :
    (s.set env name v).chain e = s.chain e := by
  unfold chain set
  rw [Array.getElem?_modify]
  by_cases he : env = e
  · rw [if_pos he]
    cases s.environments[e]? <;> rfl
  · rw [if_neg he]

/-- A new environment has no variables. -/
lemma local?_addChild (s : Store) (env e : EnvId) (x : Symbol) :
    (s.addChild env).local? e x = s.local? e x := by
  unfold local? addChild
  rw [Array.getElem?_push]
  by_cases he : e = s.environments.size
  · rw [if_pos he, Array.getElem?_eq_none (Nat.le_of_eq he.symm)]
    rfl
  · rw [if_neg he]

lemma chain_addChild_of_lt (s : Store) (env : EnvId) {e : EnvId} (he : e < s.environments.size) :
    (s.addChild env).chain e = s.chain e := by
  unfold chain addChild
  rw [Array.getElem?_push, if_neg (Nat.ne_of_lt he)]

lemma chain_addChild_size (s : Store) (env : EnvId) :
    (s.addChild env).chain s.environments.size = s.environments.size :: s.chain env := by
  conv_lhs => unfold chain addChild
  rw [Array.getElem?_push_size]

namespace Pinned

/-- Only environments matter. -/
lemma congr {s' : Store} (h : s.Pinned W) (he : s'.environments = s.environments) :
    s'.Pinned W := by
  have hlocal : ∀ env name, s'.local? env name = s.local? env name := fun env name => by
    unfold local?
    rw [he]
  have hchain : ∀ env, s'.chain env = s.chain env := fun env => by
    unfold chain
    rw [he]
  exact {
    exists_global := he ▸ h.exists_global
    global := fun name hname => (hlocal _ _).trans (h.global name hname)
    inner := fun env name henv hname => (hlocal _ _).trans (h.inner env name henv hname)
    around := fun env henv => hchain env ▸ h.around env (he ▸ henv)
    within := fun env henv e => by
      rw [hchain, he]
      exact h.within env (he ▸ henv) e }

lemma set (h : s.Pinned W) (env : EnvId) {name : Symbol} (hname : ¬ W.pinned name) (v : Value) :
    (s.set env name v).Pinned W where
  exists_global := by
    rw [size_set]
    exact h.exists_global
  global x hx := by
    rw [local?_set_of_ne_name s (by rintro rfl; exact hname hx)]
    exact h.global x hx
  inner e x he hx := by
    rw [local?_set_of_ne_name s (by rintro rfl; exact hname hx)]
    exact h.inner e x he hx
  around e he := by
    rw [chain_set]
    exact h.around e (by rwa [size_set] at he)
  within e he x hx := by
    rw [chain_set] at hx
    rw [size_set] at he ⊢
    exact h.within e he x hx

lemma addChild (h : s.Pinned W) {env : EnvId} (henv : env < s.environments.size) :
    (s.addChild env).Pinned W where
  exists_global := by
    rw [size_addChild]
    exact Nat.succ_pos _
  global x hx := by
    rw [local?_addChild]
    exact h.global x hx
  inner e x he hx := by
    rw [local?_addChild]
    exact h.inner e x he hx
  around e he := by
    rw [size_addChild] at he
    by_cases heq : e = s.environments.size
    · rw [heq, chain_addChild_size]
      exact List.mem_cons_of_mem _ (h.around env henv)
    · have hlt : e < s.environments.size := Nat.lt_of_le_of_ne (Nat.le_of_lt_succ he) heq
      rw [chain_addChild_of_lt s env hlt]
      exact h.around e hlt
  within e he x hx := by
    rw [size_addChild] at he ⊢
    by_cases heq : e = s.environments.size
    · rw [heq, chain_addChild_size] at hx
      rcases List.mem_cons.1 hx with rfl | hx
      · exact Nat.lt_succ_self _
      · exact Nat.lt_succ_of_lt (h.within env henv x hx)
    · have hlt : e < s.environments.size := Nat.lt_of_le_of_ne (Nat.le_of_lt_succ he) heq
      rw [chain_addChild_of_lt s env hlt] at hx
      exact Nat.lt_succ_of_lt (h.within e hlt x hx)

end Pinned

namespace Grows

/-- Environments did not change. -/
lemma of_eq {s' : Store} (he : s'.environments = s.environments) : s.Grows W s' where
  size := Nat.le_of_eq (by rw [he])
  chain env _ := by
    unfold Store.chain
    rw [he]
  dots _ _ env _ := by
    unfold local?
    rw [he]

lemma set (s : Store) (env : EnvId) {name : Symbol} (hname : W.Settable name) (v : Value) :
    s.Grows W (s.set env name v) where
  size := Nat.le_of_eq (size_set ..).symm
  chain e _ := chain_set s env e name v
  dots hp hs e _ := local?_set_of_ne_name s (Ne.symm ((hname hp).2 hs)) env e v

end Grows

end Store

/-! ## Reading both stores -/

namespace StoreRel

lemma size (h : StoreRel W s t) : s.environments.size = t.environments.size := h.environments.size

lemma chain (h : StoreRel W s t) (env : EnvId) : s.chain env = t.chain env := by
  unfold Store.chain
  have he := h.environments.getElem? env
  revert he
  generalize s.environments[env]? = E
  generalize t.environments[env]? = E'
  intro he
  cases he with
  | none => rfl
  | some he =>
    dsimp only
    rw [he.outer]

/-- The variables that are looked up are related. -/
lemma lookup {vars vars' : List (Symbol × Value)}
    (h : List.Forall₂ (EntryRel W n) vars vars') (name : Symbol) :
    Option.Rel (BindingRel W n name) (vars.lookup name) (vars'.lookup name) := by
  induction h with
  | nil => exact .none
  | @cons x x' vars vars' hx _ ih =>
    obtain ⟨y, v⟩ := x
    obtain ⟨y', v'⟩ := x'
    obtain rfl : y = y' := hx.name
    rw [List.lookup_cons, List.lookup_cons]
    by_cases hy : name = y
    · subst hy
      simpa using Option.Rel.some hx.value
    · rw [beq_eq_false_iff_ne.2 hy]
      exact ih

lemma local? (h : StoreRel W s t) (env : EnvId) (name : Symbol) :
    Option.Rel (BindingRel W s.environments.size name) (s.local? env name) (t.local? env name) := by
  unfold Store.local?
  have he := h.environments.getElem? env
  revert he
  generalize s.environments[env]? = E
  generalize t.environments[env]? = E'
  intro he
  cases he with
  | none => exact .none
  | some he => exact lookup he.vars name

lemma find? (h : StoreRel W s t) (env : EnvId) (name : Symbol) :
    Option.Rel (BindingRel W s.environments.size name) (s.find? env name) (t.find? env name) := by
  have hin : ∀ envs : List EnvId, Option.Rel (BindingRel W s.environments.size name)
      (envs.findSome? fun e => s.local? e name) (envs.findSome? fun e => t.local? e name) := by
    intro envs
    induction envs with
    | nil => exact .none
    | cons e envs ih =>
      rw [List.findSome?_cons, List.findSome?_cons]
      have he := h.local? e name
      revert he
      generalize s.local? e name = v
      generalize t.local? e name = v'
      intro he
      cases he with
      | none => exact ih
      | some hv => exact .some hv
  unfold Store.find?
  rw [← h.chain env]
  exact hin _

/-! ## Changing both stores -/

/-- Promises, depths and journals may be changed while environments stay. -/
lemma of_eq {s' t' : Store} (h : StoreRel W s t) (hs : s'.environments = s.environments)
    (ht : t'.environments = t.environments)
    (hp : ArrayRel (PromiseRel W s.environments.size) s'.promises t'.promises)
    (hd : W.deep → s'.depth = t'.depth) : StoreRel W s' t' where
  environments := by
    rw [hs, ht]
    exact h.environments
  promises := by
    rw [hs]
    exact hp
  depth := hd
  left hpins := (h.left hpins).congr hs
  right hpins := (h.right hpins).congr ht

/-- A variable is set to related values. -/
lemma set (h : StoreRel W s t) (env : EnvId) {name : Symbol} (hname : W.Bindable name)
    {v v' : Value} (hv : BindingRel W s.environments.size name v v') :
    StoreRel W (s.set env name v) (t.set env name v') where
  environments := by
    rw [Store.size_set]
    refine h.environments.modify env (f := fun E => { E with vars := bindIn name v E.vars })
      (g := fun E => { E with vars := bindIn name v' E.vars }) fun E E' hE => ⟨hE.outer, ?_⟩
    have hvars := hE.vars
    revert hvars
    generalize E.vars = vars
    generalize E'.vars = vars'
    intro hvars
    induction hvars with
    | nil => exact .cons ⟨rfl, hv⟩ .nil
    | @cons x x' vars vars' hx hvars ih =>
      obtain ⟨y, w⟩ := x
      obtain ⟨y', w'⟩ := x'
      obtain rfl : y = y' := hx.name
      unfold bindIn
      by_cases hy : y = name
      · rw [if_pos hy, if_pos hy]
        exact .cons ⟨rfl, hy ▸ hv⟩ hvars
      · rw [if_neg hy, if_neg hy]
        exact .cons hx ih
  promises := by
    rw [Store.size_set]
    exact h.promises
  depth := h.depth
  left hp := (h.left hp).set env (hname hp) v
  right hp := (h.right hp).set env (hname hp) v'

/-- An environment is made. -/
lemma addChild (h : StoreRel W s t) {env : EnvId} (henv : W.Valid s.environments.size env) :
    StoreRel W (s.addChild env) (t.addChild env) where
  environments := by
    rw [Store.size_addChild]
    refine (h.environments.imp fun E E' hE => hE.mono (Nat.le_succ _)).push ⟨h.chain env, .nil⟩
  promises := by
    rw [Store.size_addChild]
    exact h.promises.imp fun p p' hp => hp.mono (Nat.le_succ _)
  depth := h.depth
  left hp := (h.left hp).addChild (henv hp)
  right hp := (h.right hp).addChild (h.size ▸ henv hp)

/-- A promise is made. -/
lemma addPromise (h : StoreRel W s t) {p p' : Promise}
    (hp : PromiseRel W s.environments.size p p') :
    StoreRel W (s.addPromise p) (t.addPromise p') :=
  h.of_eq rfl rfl (h.promises.push hp) h.depth

/-- A promise is moved on. -/
lemma setStatus (h : StoreRel W s t) (p : PromiseId) {status status' : Status}
    (hs : StatusRel W s.environments.size status status') :
    StoreRel W (s.setStatus p status) (t.setStatus p status') :=
  h.of_eq rfl rfl (h.promises.modify p (f := fun q => { q with status := status })
    (g := fun q => { q with status := status' }) fun _ _ hq => ⟨hs, hq.evaluations⟩) h.depth

/-- The evaluation of a promise begins. -/
lemma begin (h : StoreRel W s t) (p : PromiseId) {x x' : Suspension}
    (hx : SuspensionRel W s.environments.size x x') :
    StoreRel W (s.begin p x) (t.begin p x') :=
  h.of_eq rfl rfl (h.promises.modify p (f := fun q => ⟨.forcing x, q.evaluations + 1⟩)
    (g := fun q => ⟨.forcing x', q.evaluations + 1⟩) fun _ _ hq =>
      ⟨.forcing hx, congrArg (· + 1) hq.evaluations⟩) h.depth

end StoreRel

/-! ## Evaluations -/

namespace EvalRel

variable {α β : Type} {R : Nat → α → β → Prop} {A : Eval α} {B : Nat → Eval β} {env : EnvId}
  {name : Symbol}

lemma findBinding (env : EnvId) (name : Symbol) :
    EvalRel W n (fun m => BindingRel W m name) (Eval.findVariable env name)
      fun _ => Eval.findVariable env name := by
  unfold Eval.findVariable
  refine get fun s t hst _ => ?_
  have hv := hst.find? env name
  revert hv
  generalize s.find? env name = v
  generalize t.find? env name = v'
  intro hv
  cases hv with
  | none => exact fail False.elim
  | some hv => exact EvalRel.pure fun _ hm => hv.mono hm

lemma findVariable (hname : W.Readable name) :
    EvalRel W n (BoundRel W) (Eval.findVariable env name) fun _ => Eval.findVariable env name :=
  (findBinding env name).weaken fun _ _ _ _ h => h.read hname

lemma setVariable (hname : W.Settable name) {v v' : Value} (hv : ValueRel W n v v') :
    EvalRel W n (fun _ _ _ => True) (Eval.setVariable env name v)
      fun _ => Eval.setVariable env name v' :=
  modify fun s t hst hn =>
    ⟨hst.set env (fun hp => (hname hp).1) (.bound (.value (hv.mono hn))), .set s env hname v, .set t env hname v',
      trivial⟩

/-- A new promise has the same number in both stores. -/
lemma promise {p p' : Suspension} (hp : SuspensionRel W n p p') :
    EvalRel W n (fun _ v v' => v = v' ∧ ∃ id, v = .promise id) (Eval.promise p)
      fun _ => Eval.promise p' :=
  modifyGet fun s t hst hn =>
    ⟨hst.addPromise ⟨.pending (hp.mono hn), rfl⟩, .of_eq rfl, .of_eq rfl,
      by rw [hst.promises.size], _, rfl⟩

lemma findDots :
    EvalRel W n (ArgsRel W) (Eval.findDots env) fun _ => Eval.findDots env := by
  refine (findBinding env .ellipsis).bind fun m _ v v' hv => ?_
  generalize Symbol.ellipsis = name at hv
  cases hv with
  | dots h => exact EvalRel.pure fun _ hm => h.mono hm
  | form hs => exact fail False.elim
  | bound h =>
    cases h with
    | promise p => exact fail False.elim
    | value h =>
      cases h with
      | dots _ h => exact EvalRel.pure fun _ hm => h.mono hm
      | _ => exact fail False.elim

end EvalRel

/-! ### Changing the store before and after -/

/-- Changing the store once an evaluation is over. -/
lemma Eval.settled_apply {α : Type} (act : Eval α) (settle : Except Halt α → Store → Store)
    (s : Store) : act.settled settle s = match act s with
      | .ok a s => .ok a (settle (.ok a) s)
      | .error e s => .error e (settle (.error e) s) := rfl

/-- An evaluation between two changes of the store that leave environments alone. -/
lemma EvalRel.bracket {α β : Type} {R : Nat → α → β → Prop} {A : Eval α} {B : Nat → Eval β}
    (h : EvalRel W n R A B) (s t : Store) (before before' : Store → Store)
    (after : Except Halt α → Store → Store) (after' : Except Halt β → Store → Store)
    (hn : n ≤ s.environments.size) (hst : StoreRel W (before s) (before' t))
    (hs : (before s).environments = s.environments)
    (ht : (before' t).environments = t.environments)
    (hafter : ∀ r s', (after r s').environments = s'.environments)
    (hafter' : ∀ r t', (after' r t').environments = t'.environments)
    (hok : ∀ a b s' t', StoreRel W s' t' → s.environments.size ≤ s'.environments.size →
      R s'.environments.size a b → StoreRel W (after (.ok a) s') (after' (.ok b) t'))
    (herror : ∀ e e' s' t', StoreRel W s' t' → s.environments.size ≤ s'.environments.size →
      StoreRel W (after (.error e) s') (after' (.error e') t')) :
    Matches W R s t (A.settled after (before s)) fun k t => (B k).settled after' (before' t) := by
  have hsettles : ∀ {r}, Settles B (before' t) r →
      Settles (fun k t => (B k).settled after' (before' t)) t (match r with
        | .ok b t => .ok b (after' (.ok b) t)
        | .error e t => .error e (after' (.error e) t)) := by
    rintro r ⟨m, hm⟩
    refine ⟨m, fun k hk => ?_⟩
    dsimp only
    rw [Eval.settled_apply, hm k hk]
    cases r <;> rfl
  have hgrows : ∀ {s' : Store} r, (before s).Grows W s' → s.Grows W (after r s') := fun r h =>
    ((Store.Grows.of_eq hs).trans h).trans (.of_eq (hafter r _))
  have hgrows' : ∀ {t' : Store} r, (before' t).Grows W t' → t.Grows W (after' r t') := fun r h =>
    ((Store.Grows.of_eq ht).trans h).trans (.of_eq (hafter' r _))
  have hm := h _ _ hst (by rwa [hs])
  rw [Eval.settled_apply]
  revert hm
  generalize A (before s) = r
  intro hm
  cases hm with
  | excused hr hh =>
    subst hr
    exact .excused rfl hh
  | dropped hB he => exact .dropped (hsettles hB) he
  | same hB hr =>
    refine .same (hsettles hB) ?_
    cases hr with
    | ok hab hst' hs' ht' =>
      have hsize := hs'.size
      rw [hs] at hsize
      refine .ok ?_ (hok _ _ _ _ hst' hsize hab) (hgrows _ hs') (hgrows' _ ht')
      rw [hafter]
      exact hab
    | error hh hst' hs' ht' =>
      have hsize := hs'.size
      rw [hs] at hsize
      exact .error hh (herror _ _ _ _ hst' hsize) (hgrows _ hs') (hgrows' _ ht')

/-! ### Depth -/

namespace Eval

variable {α : Type}

/-- Entering is refused at the limit. -/
lemma enter_of_le {limit : Nat} (act : Eval α) (h : limit ≤ s.depth) :
    enter limit act s = .error (.error (.depthExceeded limit)) s := by
  unfold enter
  rw [get_bind_apply, if_pos h]
  rfl

/-- Below the limit, the evaluation is one level deeper. -/
lemma enter_of_lt {limit : Nat} (act : Eval α) (h : ¬ limit ≤ s.depth) :
    enter limit act s
      = act.settled (fun _ s => { s with depth := s.depth - 1 })
          { s with depth := s.depth + 1 } := by
  unfold enter
  rw [get_bind_apply, if_neg h]
  rfl

end Eval

namespace EvalRel

variable {α β : Type} {R : Nat → α → β → Prop} {A : Eval α} {B : Nat → Eval β}

/-- Evaluations one level deeper, from stores that are equally deep. -/
lemma enter_deep (hd : W.deep) (limit : Nat) (h : EvalRel W n R A B) :
    EvalRel W n R (Eval.enter limit A) fun k => Eval.enter limit (B k) := by
  intro s t hst hn
  by_cases hlimit : limit ≤ s.depth
  · have hlimit' : limit ≤ t.depth := hst.depth hd ▸ hlimit
    rw [Eval.enter_of_le A hlimit]
    refine .same ⟨0, fun k _ => Eval.enter_of_le (B k) hlimit'⟩ ?_
    exact .error (.refl False.elim) hst (.refl s) (.refl t)
  · have hlimit' : ¬ limit ≤ t.depth := hst.depth hd ▸ hlimit
    rw [Eval.enter_of_lt A hlimit]
    refine (h.bracket s t (fun s => { s with depth := s.depth + 1 })
      (fun s => { s with depth := s.depth + 1 }) (fun _ s => { s with depth := s.depth - 1 })
      (fun _ s => { s with depth := s.depth - 1 }) hn ?_ rfl rfl (fun _ _ => rfl)
      (fun _ _ => rfl) (fun _ _ s' t' hst' _ _ => ?_) fun _ _ s' t' hst' _ => ?_).congr
      fun k => Eval.enter_of_lt (B k) hlimit'
    · exact hst.of_eq rfl rfl hst.promises fun hd => congrArg (· + 1) (hst.depth hd)
    · exact hst'.of_eq rfl rfl hst'.promises fun hd => congrArg (· - 1) (hst'.depth hd)
    · exact hst'.of_eq rfl rfl hst'.promises fun hd => congrArg (· - 1) (hst'.depth hd)

variable (hd : ¬ W.deep) (hdrop : ∀ limit, W.dropped (.depthExceeded limit))
include hd hdrop

/-- The first evaluation may be deeper when depths do not count. -/
lemma enter_left (limit : Nat) (h : EvalRel W n R A B) :
    EvalRel W n R (Eval.enter limit A) B := by
  intro s t hst hn
  by_cases hlimit : limit ≤ s.depth
  · exact .excused (Eval.enter_of_le A hlimit) (.inl ⟨hdrop limit, limit, rfl⟩)
  · rw [Eval.enter_of_lt A hlimit]
    refine (h.bracket s t (fun s => { s with depth := s.depth + 1 }) id
      (fun _ s => { s with depth := s.depth - 1 }) (fun _ s => s) hn ?_ rfl rfl (fun _ _ => rfl)
      (fun _ _ => rfl) (fun _ _ s' t' hst' _ _ => ?_) fun _ _ s' t' hst' _ => ?_).congr
      fun k => ?_
    · exact hst.of_eq rfl rfl hst.promises fun h => absurd h hd
    · exact hst'.of_eq rfl rfl hst'.promises fun h => absurd h hd
    · exact hst'.of_eq rfl rfl hst'.promises fun h => absurd h hd
    · dsimp only [id]
      rw [Eval.settled_apply]
      cases B k t <;> rfl

/-- The second evaluation may be deeper when depths do not count. -/
lemma enter_right (limit : Nat) (h : EvalRel W n R A B) :
    EvalRel W n R A fun k => Eval.enter limit (B k) := by
  intro s t hst hn
  by_cases hlimit : limit ≤ t.depth
  · exact .dropped ⟨0, fun k _ => Eval.enter_of_le (B k) hlimit⟩ (hdrop limit)
  · have hm := (h.bracket s t id (fun s => { s with depth := s.depth + 1 }) (fun _ s => s)
      (fun _ s => { s with depth := s.depth - 1 }) hn
      (hst.of_eq rfl rfl hst.promises fun h => absurd h hd) rfl rfl (fun _ _ => rfl)
      (fun _ _ => rfl)
      (fun _ _ s' t' hst' _ _ => hst'.of_eq rfl rfl hst'.promises fun h => absurd h hd)
      fun _ _ s' t' hst' _ => hst'.of_eq rfl rfl hst'.promises fun h => absurd h hd).congr
      fun k => Eval.enter_of_lt (B k) hlimit
    dsimp only [id] at hm
    rw [Eval.settled_apply] at hm
    revert hm
    cases A s <;> exact id

end EvalRel

end CallByNeed
