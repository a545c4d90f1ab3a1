import CallByNeed.Proofs.Plain.Binding

/-!
# What evaluations do to the store

The history of a store over an evaluation (`Store.Changes`): assignments of ordinary values,
applications of compiled functions, whose formals are bound to arguments, promises that are made, and
promises that are forced or given up, with a history of its own in between. A history names the
environments that were made, each with the function unit that was applied. It leads from proper stores
to proper stores (`Store.Changes.leads`), and what is bound to a name that is no ordinary value was
bound to a formal of that name by the matching of arguments (`Store.Leads.formal`).
-/

namespace CallByNeed

variable {s m t : Store} {env frame : EnvId} {name : Symbol} {v : Value}

/-! ## Histories -/

/-- Environments that were made, with the function units that were applied. -/
abbrev Frames := List (EnvId × FunctionUnit)

section

variable [Inherited]

/-- What an evaluation does to the store, with the environments made in it. -/
inductive Store.Changes : Frames → Store → Store → Prop
  | nothing (s : Store) : Changes [] s s
  /-- One thing after the other. -/
  | trans {fs gs : Frames} {s m t : Store} (h : Changes fs s m) (h' : Changes gs m t) :
    Changes (fs ++ gs) s t
  /-- A variable is set to an ordinary value. -/
  | assign {s : Store} (env : EnvId) (name : Symbol) {v : Value}
    (hv : v.Plain s.environments.size) : Changes [] s (s.set env name v)
  /-- The formals of a compiled function are bound to arguments in a new environment. -/
  | apply {s t : Store} {f : FunctionUnit} {env frame : EnvId} {call : Call} {args : ArgList}
    (hf : f.Compiled) (henv : env < s.environments.size)
    (hargs : ArgList.Lazy s s.environments.size args)
    (h : bindArguments f env call args s = .ok frame t) : Changes [(frame, f)] s t
  /-- A promise is made. -/
  | suspend {s : Store} {x : Suspension} (hx : x.Proper s) :
    Changes [] s (s.addPromise ⟨.pending x, 0⟩)
  /-- Something is noted in the journal. -/
  | note (s : Store) (j : Journal) : Changes [] s { s with journal := j }
  /-- Something is done one level deeper. -/
  | deeper {fs : Frames} {s t : Store} (h : Changes fs { s with depth := s.depth + 1 } t) :
    Changes fs s { t with depth := t.depth - 1 }
  /-- A pending promise is evaluated and gets its value, an ordinary one. -/
  | force {fs : Frames} {s t : Store} {p : PromiseId} {x : Suspension} {v : Value}
    (hp : s.promises[p]?.map Promise.status = some (.pending x)) (h : Changes fs (s.begin p x) t)
    (hv : v.Plain t.environments.size) : Changes fs s (t.setStatus p (.forced v))
  /-- The evaluation of a pending promise is given up. -/
  | giveUp {fs : Frames} {s t : Store} {p : PromiseId} {x : Suspension}
    (hp : s.promises[p]?.map Promise.status = some (.pending x)) (h : Changes fs (s.begin p x) t) :
    Changes fs s (t.setStatus p (.pending x))

end

namespace Store

variable {p : PromiseId} {x : Suspension} {status : Status} {fs gs : Frames}

lemma suspension?_of_pending (hp : s.promises[p]?.map Promise.status = some (.pending x)) :
    s.suspension? p = some x := by
  obtain ⟨q, hq, hstatus⟩ := Option.map_eq_some_iff.1 hp
  unfold suspension?
  rw [hq]
  exact congrArg Status.suspension? hstatus

/-- The evaluation of a pending promise begins. -/
lemma before_begin (hp : s.promises[p]?.map Promise.status = some (.pending x)) :
    s.Before (s.begin p x) := by
  refine .modify fun q y hq hy => ?_
  rw [hq] at hp
  rw [Option.some.inj hp]
  exact hy

lemma Proper.begin [Inherited] (h : s.Proper)
    (hp : s.promises[p]?.map Promise.status = some (.pending x)) : (s.begin p x).Proper := by
  refine h.modify (before_begin hp) fun q hq => ?_
  have hx := h.promises p q hq
  rw [hq] at hp
  rwa [Option.some.inj hp] at hx

/-- The evaluation of a promise is over. -/
lemma before_setStatus (hp : s.promises[p]?.map Promise.status = some (.forcing x))
    (hstatus : ∀ y, status.suspension? = some y → y = x) : s.Before (s.setStatus p status) := by
  refine .modify fun q y hq hy => ?_
  rw [hq] at hp
  rw [Option.some.inj hp]
  exact congrArg some (hstatus y hy).symm

lemma Proper.setStatus [Inherited] (h : s.Proper)
    (hp : s.promises[p]?.map Promise.status = some (.forcing x))
    (hx : ∀ y, status.suspension? = some y → y = x) (hstatus : status.Proper s) :
    (s.setStatus p status).Proper :=
  h.modify (before_setStatus hp hx) fun _ _ => hstatus

/-- The other promises stay what they are. -/
lemma status_modify {f : Promise → Promise} {p' : PromiseId} (hne : p' ≠ p) :
    ({ s with promises := s.promises.modify p' f }.promises[p]?).map Promise.status
      = s.promises[p]?.map Promise.status := by
  dsimp only
  rw [Array.getElem?_modify, if_neg hne]

/-- Nothing waits to be forced for having been moved on otherwise. -/
lemma pending_of_modify {f : Promise → Promise} (hf : ∀ q y, (f q).status ≠ .pending y)
    {p' : PromiseId} (h : Pending { s with promises := s.promises.modify p f } p') :
    s.Pending p' ∧ p' ≠ p := by
  obtain ⟨y, hy⟩ := h
  by_cases hne : p' = p
  · subst hne
    dsimp only at hy
    rw [Array.getElem?_modify, if_pos rfl] at hy
    obtain ⟨q, hq, hstatus⟩ := Option.map_eq_some_iff.1 hy
    obtain ⟨q', -, rfl⟩ := Option.map_eq_some_iff.1 hq
    exact absurd hstatus (hf q' y)
  · rw [status_modify (Ne.symm hne)] at hy
    exact ⟨⟨y, hy⟩, hne⟩

/-- A promise whose evaluation begins does not wait any more. -/
lemma pending_begin {p' : PromiseId} (h : (s.begin p x).Pending p') : s.Pending p' ∧ p' ≠ p :=
  pending_of_modify (fun _ _ h => by cases h) h

lemma unforced_begin_le [Inherited] : (s.begin p x).unforced ≤ s.unforced :=
  unforced_le fun _ _ h => (pending_begin h).1

/-- One of the promises that wait is forced. -/
lemma unforced_begin_lt [Inherited] (hlt : p < Inherited.count)
    (hp : s.promises[p]?.map Promise.status = some (.pending x)) :
    (s.begin p x).unforced < s.unforced := by
  refine Set.ncard_lt_ncard ⟨fun p' h => ⟨h.1, (pending_begin h.2).1⟩, fun hsub => ?_⟩
    ((Set.finite_lt_nat Inherited.count).subset fun _ h => h.1)
  exact (pending_begin (hsub ⟨hlt, x, hp⟩).2).2 rfl

end Store

section

variable [Inherited]

/-- What a history from a proper store leads to. -/
structure Store.Leads (fs : Frames) (s t : Store) : Prop where
  before : s.Before t
  proper : t.Proper
  depth : t.depth = s.depth
  /-- What is under evaluation stays so. -/
  forcing : ∀ (p : PromiseId) (x : Suspension),
    s.promises[p]?.map Promise.status = some (.forcing x) →
      t.promises[p]?.map Promise.status = some (.forcing x)
  /-- What waits to be forced did so before, if it was there. -/
  pending : ∀ p, p < s.promises.size → t.Pending p → s.Pending p
  /-- What is bound and no ordinary value was bound before, or to a formal of that name. -/
  formal : ∀ e x v, t.local? e x = some v → ¬ v.Plain t.environments.size →
    s.local? e x = some v ∨ ∃ f, (e, f) ∈ fs ∧ x ∈ f.formals.map Formal.name

namespace Store.Leads

variable {fs gs : Frames} {p : PromiseId} {x : Suspension} {status : Status}

/-- Only environments and promises matter. -/
lemma of_eq (h : s.Proper) (henv : t.environments = s.environments) (hp : t.promises = s.promises)
    (hdepth : t.depth = s.depth) : s.Leads fs t where
  before := .of_promises (Nat.le_of_eq (congrArg Array.size henv).symm) hp
  proper := h.of_eq henv hp
  depth := hdepth
  forcing _ _ hx := by rwa [hp]
  pending p _ h := by rwa [Pending, ← hp]
  formal e y v hv _ := by
    unfold Store.local? at hv ⊢
    rw [henv] at hv
    exact .inl hv

lemma trans (h : s.Leads fs m) (h' : m.Leads gs t) : s.Leads (fs ++ gs) t where
  before := h.before.trans h'.before
  proper := h'.proper
  depth := h'.depth.trans h.depth
  forcing p x hx := h'.forcing p x (h.forcing p x hx)
  pending p hlt hp := h.pending p hlt (h'.pending p (Nat.lt_of_lt_of_le hlt h.before.promises) hp)
  formal e y v hv hplain := by
    rcases h'.formal e y v hv hplain with hv | ⟨f, hf, hy⟩
    · rcases h.formal e y v hv fun hm => hplain (hm.mono h'.before.environments) with hv | ⟨f, hf, hy⟩
      · exact .inl hv
      · exact .inr ⟨f, List.mem_append_left _ hf, hy⟩
    · exact .inr ⟨f, List.mem_append_right _ hf, hy⟩

lemma assign (h : s.Proper) (hv : v.Plain s.environments.size) :
    s.Leads [] (s.set env name v) := by
  have hfills : s.Fills env [name] (s.set env name v) :=
    .set h List.mem_cons_self (.lazy (.plain hv))
  refine ⟨hfills.before, hfills.proper, rfl, fun _ _ hx => hx, fun _ _ hp => hp,
    fun e y w hw hplain => .inl ?_⟩
  by_cases he : e = env
  · subst he
    by_cases hy : y = name
    · subst hy
      unfold Store.local? Store.set at hw
      dsimp only at hw
      rw [Array.getElem?_modify, if_pos rfl] at hw
      cases hE : s.environments[e]? with
      | none =>
        rw [hE] at hw
        cases hw
      | some E =>
        rw [hE] at hw
        dsimp only [Option.map_some] at hw
        rw [lookup_bindIn_same] at hw
        refine absurd ?_ hplain
        rw [s.size_set]
        exact Option.some.inj hw ▸ hv
    · rwa [s.local?_set_of_ne_name hy] at hw
  · rwa [s.local?_set_of_ne_env he] at hw

lemma apply {f : FunctionUnit} {call : Call} {args : ArgList} (hs : s.Proper)
    (hf : f.Compiled) (henv : env < s.environments.size)
    (hargs : ArgList.Lazy s s.environments.size args)
    (h : bindArguments f env call args s = .ok frame t) : s.Leads [(frame, f)] t := by
  obtain ⟨-, hfills⟩ := fills_of_bindArguments hs hf henv hargs h
  refine ⟨(s.before_addChild env).trans hfills.before, hfills.proper, hfills.depth,
    fun p x hx => ?_, fun p hlt hp => hfills.pending hlt hp, fun e y v hv _ => ?_⟩
  · obtain ⟨q, hq, hstatus⟩ := Option.map_eq_some_iff.1 hx
    rw [hfills.promises p q hq]
    exact congrArg some hstatus
  · rcases hfills.locals e y v hv with hv | ⟨rfl, hy⟩
    · rw [s.local?_addChild] at hv
      exact .inl hv
    · exact .inr ⟨f, List.mem_singleton_self _, hy⟩

lemma suspend (h : s.Proper) (hx : x.Proper s) : s.Leads [] (s.addPromise ⟨.pending x, 0⟩) := by
  have hfills : s.Fills 0 [] (s.addPromise ⟨.pending x, 0⟩) := .addPromise h hx
  refine ⟨hfills.before, hfills.proper, rfl, fun p y hy => ?_, fun _ hlt hp => hfills.pending hlt hp,
    fun _ _ _ hv _ => .inl hv⟩
  obtain ⟨q, hq, hstatus⟩ := Option.map_eq_some_iff.1 hy
  rw [hfills.promises p q hq]
  exact congrArg some hstatus

lemma deeper (h : Store.Leads fs { s with depth := s.depth + 1 } t) :
    s.Leads fs { t with depth := t.depth - 1 } where
  before := by
    have henter : s.Before { s with depth := s.depth + 1 } := .of_promises (Nat.le_refl _) rfl
    have hleave : t.Before { t with depth := t.depth - 1 } := .of_promises (Nat.le_refl _) rfl
    exact henter.trans (h.before.trans hleave)
  proper := h.proper.of_eq rfl rfl
  depth := by
    show t.depth - 1 = s.depth
    rw [h.depth]
    exact Nat.add_sub_cancel s.depth 1
  forcing := h.forcing
  pending := h.pending
  formal := h.formal

/-- Over the evaluation of a promise, with a value or without. -/
lemma bracket (hp : s.promises[p]?.map Promise.status = some (.pending x))
    (h : (s.begin p x).Leads fs t) (hx : ∀ y, status.suspension? = some y → y = x)
    (hstatus : status.Proper t) : s.Leads fs (t.setStatus p status) := by
  have hforcing : t.promises[p]?.map Promise.status = some (.forcing x) := by
    refine h.forcing p x ?_
    obtain ⟨q, hq, -⟩ := Option.map_eq_some_iff.1 hp
    unfold Store.begin
    dsimp only
    rw [Array.getElem?_modify, if_pos rfl, hq]
    rfl
  refine ⟨(Store.before_begin hp).trans (h.before.trans (Store.before_setStatus hforcing hx)),
    h.proper.setStatus hforcing hx hstatus, h.depth, fun p' y hy => ?_, fun p' hlt hp' => ?_, h.formal⟩
  · have hne : p ≠ p' := by
      rintro rfl
      rw [hp] at hy
      cases hy
    exact (Store.status_modify hne).trans (h.forcing p' y ((Store.status_modify hne).trans hy))
  · by_cases hne : p = p'
    · exact ⟨x, hne ▸ hp⟩
    · obtain ⟨y, hy⟩ := hp'
      have hbegun := h.pending p' (Nat.lt_of_lt_of_le hlt (Store.before_begin hp).promises)
        ⟨y, (Store.status_modify hne).symm.trans hy⟩
      exact (Store.pending_begin hbegun).1

end Store.Leads

/-- **A history leads from a proper store to a proper one.** -/
theorem Store.Changes.leads {fs : Frames} (h : s.Changes fs t) (hs : s.Proper) : s.Leads fs t := by
  induction h with
  | nothing => exact .of_eq hs rfl rfl rfl
  | trans _ _ ih ih' => exact (ih hs).trans (ih' (ih hs).proper)
  | assign env name hv => exact .assign hs hv
  | apply hf henv hargs h => exact .apply hs hf henv hargs h
  | suspend hx => exact .suspend hs hx
  | note s j => exact .of_eq hs rfl rfl rfl
  | deeper _ ih => exact (ih (hs.of_eq rfl rfl)).deeper
  | force hp _ hv ih =>
    exact (ih (hs.begin hp)).bracket hp (fun y hy => by cases hy) hv
  | @giveUp fs s t p x hp _ ih =>
    have ht := ih (hs.begin hp)
    refine ht.bracket hp (fun y hy => (Option.some.inj hy).symm) ?_
    obtain ⟨q, hq, hstatus⟩ := Option.map_eq_some_iff.1 hp
    have hx := hs.promises p q hq
    rw [hstatus] at hx
    exact Suspension.Proper.mono ((Store.before_begin hp).trans ht.before) hx

end

/-- No promise comes to wait that may be bound anywhere. -/
lemma Store.Leads.unforced_le [Inherited] {fs : Frames} (h : s.Leads fs t) (hs : s.Proper) :
    t.unforced ≤ s.unforced :=
  Store.unforced_le fun p hlt hp => h.pending p (Nat.lt_of_lt_of_le hlt hs.inherited) hp

/-! ## In the middle of evaluations -/

section

variable [Inherited]

/-- The store is reached from another one, perhaps in the middle of forcing promises and of
evaluations that are nested in others. -/
inductive Store.Reached (s₀ : Store) : Frames → Store → Prop
  | start (h : s₀.Proper) : Reached s₀ [] s₀
  | changes {fs gs : Frames} {s t : Store} (h : Reached s₀ fs s) (h' : s.Changes gs t) :
    Reached s₀ (fs ++ gs) t
  | begins {fs : Frames} {s : Store} {p : PromiseId} {x : Suspension} (h : Reached s₀ fs s)
    (hp : s.promises[p]?.map Promise.status = some (.pending x)) : Reached s₀ fs (s.begin p x)
  | enters {fs : Frames} {s : Store} (h : Reached s₀ fs s) :
    Reached s₀ fs { s with depth := s.depth + 1 }

namespace Store.Reached

variable {s₀ : Store} {fs : Frames}

/-- Every store that is reached is proper. -/
theorem proper (h : s₀.Reached fs s) : s.Proper := by
  induction h with
  | start h => exact h
  | changes _ h ih => exact (h.leads ih).proper
  | begins _ hp ih => exact ih.begin hp
  | enters _ ih => exact ih.of_eq rfl rfl

lemma before (h : s₀.Reached fs s) : s₀.Before s := by
  induction h with
  | start => exact .refl s₀
  | changes h h' ih => exact ih.trans (h'.leads h.proper).before
  | begins _ hp ih => exact ih.trans (before_begin hp)
  | enters _ ih => exact ih.trans (.of_promises (Nat.le_refl _) rfl)

/-- What is bound and no ordinary value was bound at the start, or to a formal of that name. -/
theorem formal (h : s₀.Reached fs s) : ∀ e x v, s.local? e x = some v →
    ¬ v.Plain s.environments.size →
      s₀.local? e x = some v ∨ ∃ f, (e, f) ∈ fs ∧ x ∈ f.formals.map Formal.name := by
  induction h with
  | start => exact fun e x v hv _ => .inl hv
  | begins _ _ ih => exact ih
  | enters _ ih => exact ih
  | changes h h' ih =>
    intro e x v hv hplain
    have hleads := h'.leads h.proper
    rcases hleads.formal e x v hv hplain with hv | ⟨f, hf, hx⟩
    · rcases ih e x v hv fun hm => hplain (hm.mono hleads.before.environments) with hv | ⟨f, hf, hx⟩
      · exact .inl hv
      · exact .inr ⟨f, List.mem_append_left _ hf, hx⟩
    · exact .inr ⟨f, List.mem_append_right _ hf, hx⟩

end Store.Reached

end

end CallByNeed
