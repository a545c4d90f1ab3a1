import CallByNeed.Proofs.Plain.Stores

/-!
# Binding arguments

Matching hands arguments on (`Matching.assign_forall`). So when a compiled function is applied, what
its formals are bound to is ordinary, or a promise from outside the new environment, or one of a
default (`fills_of_bindArguments`).
-/

namespace CallByNeed

variable {s m t : Store} {env frame : EnvId} {name : Symbol} {v : Value}

/-! ## Matching -/

namespace Matching

variable {P : Value → Prop} {args named others left : ArgList} {given : List (Option Value)}

/-- What formals are given is among the arguments, and so is what is left of them. -/
def Given (P : Value → Prop) (r : List (Option Value) × ArgList) : Prop :=
  (∀ v, some v ∈ r.1 → P v) ∧ ∀ a ∈ r.2, P a.value

lemma takeUnnamed_forall : ∀ {args rest : ArgList} {v : Value}, (∀ a ∈ args, P a.value) →
    takeUnnamed args = some (v, rest) → P v ∧ ∀ a ∈ rest, P a.value
  | [], _, _, _, h => by cases h
  | a :: args, rest, v, hP, h => by
    obtain ⟨ha, hP⟩ := List.forall_mem_cons.1 hP
    rw [takeUnnamed] at h
    split at h
    · cases h
      exact ⟨ha, hP⟩
    · obtain ⟨_, hw, heq⟩ := Option.map_eq_some_iff.1 h
      cases heq
      obtain ⟨hv, hrest⟩ := takeUnnamed_forall hP hw
      exact ⟨hv, List.forall_mem_cons.2 ⟨ha, hrest⟩⟩

lemma takeNamed_forall {name : Symbol} : ∀ {args rest : ArgList} {v : Value},
    (∀ a ∈ args, P a.value) → takeNamed name args = some (v, rest) →
      P v ∧ ∀ a ∈ rest, P a.value
  | [], _, _, _, h => by cases h
  | a :: args, rest, v, hP, h => by
    obtain ⟨ha, hP⟩ := List.forall_mem_cons.1 hP
    rw [takeNamed] at h
    split at h
    · cases h
      exact ⟨ha, hP⟩
    · obtain ⟨_, hw, heq⟩ := Option.map_eq_some_iff.1 h
      cases heq
      obtain ⟨hv, hrest⟩ := takeNamed_forall hP hw
      exact ⟨hv, List.forall_mem_cons.2 ⟨ha, hrest⟩⟩

lemma byName_forall : ∀ {formals : List Symbol} {named : ArgList}, (∀ a ∈ named, P a.value) →
    ∀ v, some v ∈ byName named formals → P v
  | [], _, _, v, hv => by cases hv
  | f :: formals, named, hP, v, hv => by
    rw [byName] at hv
    split at hv
    · rename_i w rest hw
      have htaken : takeNamed f named = some (w, rest) := by
        split at hw
        · cases hw
        · exact hw
      obtain ⟨hw, hrest⟩ := takeNamed_forall hP htaken
      rcases List.mem_cons.1 hv with hv | hv
      · exact Option.some.inj hv ▸ hw
      · exact byName_forall hrest v hv
    · rcases List.mem_cons.1 hv with hv | hv
      · cases hv
      · exact byName_forall hP v hv

lemma fill_forall : ∀ {formals : List Symbol} {named others : ArgList},
    (∀ a ∈ named, P a.value) → (∀ a ∈ others, P a.value) → Given P (fill named others formals)
  | [], _, _, _, hothers => ⟨fun _ hv => absurd hv List.not_mem_nil, hothers⟩
  | f :: formals, named, others, hnamed, hothers => by
    have hcons : ∀ {r : List (Option Value) × ArgList} {x : Option Value}, Given P r →
        (∀ v, x = some v → P v) → Given P (x :: r.1, r.2) := by
      intro r x hr hx
      refine ⟨fun v hv => ?_, hr.2⟩
      rcases List.mem_cons.1 hv with hv | hv
      · exact hx v hv.symm
      · exact hr.1 v hv
    rw [fill]
    split
    · exact ⟨byName_forall hnamed, hothers⟩
    · split
      · rename_i w rest hw
        obtain ⟨hw, hrest⟩ := takeNamed_forall hnamed hw
        exact hcons (fill_forall hrest hothers) fun v hv => Option.some.inj hv ▸ hw
      · split
        · rename_i w rest hw
          obtain ⟨hw, hrest⟩ := takeUnnamed_forall hothers hw
          exact hcons (fill_forall hnamed hrest) fun v hv => Option.some.inj hv ▸ hw
        · exact hcons (fill_forall hnamed hothers) fun v hv => by cases hv

/-- Formals and `...` are given arguments only. -/
lemma assign_forall {formals : List Symbol} (hP : ∀ a ∈ args, P a.value)
    {r : List (Option Value) × ArgList} (h : assign formals args = .ok r) : Given P r := by
  have hfill : Given P (fill (args.filter (isNamed formals))
      (args.filter fun a => !isNamed formals a) formals) :=
    fill_forall (fun a ha => hP a (List.mem_filter.1 ha).1)
      fun a ha => hP a (List.mem_filter.1 ha).1
  unfold assign at h
  dsimp only at h
  split at h
  · cases h
  · split at h
    · cases h
    · cases h
      exact hfill

end Matching

/-! ## Binding formals -/

section

variable [Inherited]

/-- Names were bound in an environment, to what may be bound there. -/
structure Store.Fills (frame : EnvId) (names : List Symbol) (s t : Store) : Prop where
  before : s.Before t
  proper : t.Proper
  size : t.environments.size = s.environments.size
  depth : t.depth = s.depth
  promises : ∀ (p : PromiseId) (q : Promise), s.promises[p]? = some q → t.promises[p]? = some q
  /-- Whatever is new is bound to one of the names. -/
  locals : ∀ e x v, t.local? e x = some v → s.local? e x = some v ∨ (e = frame ∧ x ∈ names)

namespace Store.Fills

variable {names names' : List Symbol}

lemma nothing (h : s.Proper) : s.Fills frame names s :=
  ⟨.refl s, h, rfl, rfl, fun _ _ h => h, fun _ _ _ h => .inl h⟩

lemma trans (h : Store.Fills frame names s m) (h' : Store.Fills frame names' m t)
    (hsub : ∀ x ∈ names', x ∈ names) : Store.Fills frame names s t where
  before := h.before.trans h'.before
  proper := h'.proper
  size := h'.size.trans h.size
  depth := h'.depth.trans h.depth
  promises p q hq := h'.promises p q (h.promises p q hq)
  locals e x v hv := by
    rcases h'.locals e x v hv with hv | ⟨he, hx⟩
    · exact h.locals e x v hv
    · exact .inr ⟨he, hsub x hx⟩

/-- One of the names is bound. -/
lemma set (h : s.Proper) (hname : name ∈ names) (hv : v.Bound s frame name) :
    s.Fills frame names (s.set frame name v) where
  before := s.before_set frame name v
  proper := h.set hv
  size := s.size_set frame name v
  depth := rfl
  promises _ _ hq := hq
  locals e x w hw := by
    by_cases he : e = frame
    · by_cases hx : x = name
      · exact .inr ⟨he, hx ▸ hname⟩
      · rw [s.local?_set_of_ne_name hx] at hw
        exact .inl hw
    · rw [s.local?_set_of_ne_env he] at hw
      exact .inl hw

/-- A promise is made. -/
lemma addPromise (h : s.Proper) {x : Suspension} (hx : x.Proper s) :
    s.Fills frame names (s.addPromise ⟨.pending x, 0⟩) where
  before := s.before_addPromise _
  proper := h.addPromise hx
  size := rfl
  depth := rfl
  promises p q hq := by
    have hlt := (Array.getElem?_eq_some_iff.1 hq).1
    unfold Store.addPromise
    dsimp only
    rwa [Array.getElem?_push, if_neg (Nat.ne_of_lt hlt)]
  locals _ _ _ hv := .inl hv

/-- What waits to be forced did so before, if it was there. -/
lemma pending (h : Store.Fills frame names s t) {p : PromiseId} (hlt : p < s.promises.size)
    (hp : t.Pending p) : s.Pending p := by
  obtain ⟨x, hx⟩ := hp
  rw [h.promises p _ (Array.getElem?_eq_getElem hlt)] at hx
  exact ⟨x, by rw [Array.getElem?_eq_getElem hlt]; exact hx⟩

end Store.Fills

/-- What a formal is bound to may be bound. -/
lemma lazy_of_formalValue {f : Formal CodeUnit} {given : List (Option Value)}
    (names : List Symbol) (hs : s.Proper) (hframe : frame < s.environments.size)
    (hdefault : ∀ u, f.default = some u → u.Compiled)
    (hgiven : ∀ v, some v ∈ given → v.Lazy s frame) (h : formalValue frame f given s = .ok v t) :
    s.Fills frame names t ∧ v.Lazy t frame := by
  have hpromise : ∀ x : Suspension, x.Proper s → x.env? = none →
      Eval.promise x s = .ok v t → s.Fills frame names t ∧ v.Lazy t frame := by
    intro x hx henv h
    cases h
    refine ⟨.addPromise hs hx, .promise (s.below_addPromise fun env h => ?_)⟩
    rw [henv] at h
    cases h
  unfold formalValue at h
  cases hgot : given.head?.join with
  | some w =>
    rw [hgot] at h
    cases h
    refine ⟨.nothing hs, hgiven v ?_⟩
    cases given with
    | nil => cases hgot
    | cons x given =>
      obtain rfl : x = some v := by simpa using hgot
      exact List.mem_cons_self
  | none =>
    rw [hgot] at h
    cases hu : f.default with
    | some u =>
      rw [hu] at h
      exact hpromise (.compiled u frame) ⟨hdefault u hu, hframe⟩ rfl h
    | none =>
      rw [hu] at h
      exact hpromise (.missing f.name) trivial rfl h

/-- Formals are bound to arguments, to promises of their defaults, or to promises that fail. -/
theorem fills_of_bindFormals : ∀ {formals : List (Formal CodeUnit)} {given : List (Option Value)}
    {left : ArgList} {s t : Store}, s.Proper → frame < s.environments.size →
    (∀ f ∈ formals, ∀ u, f.default = some u → u.Compiled) →
    (∀ v, some v ∈ given → v.Lazy s frame) → ArgList.Lazy s frame left →
    bindFormals frame formals given left s = .ok () t →
      s.Fills frame (formals.map Formal.name) t
  | [], _, _, s, t, hs, _, _, _, _, h => by
    cases h
    exact .nothing hs
  | f :: formals, given, left, s, t, hs, hframe, hdefaults, hgiven, hleft, h => by
    obtain ⟨hdefault, hdefaults⟩ := List.forall_mem_cons.1 hdefaults
    have hname : f.name ∈ (f :: formals).map Formal.name := List.mem_cons_self
    have hsub : ∀ x ∈ formals.map Formal.name, x ∈ (f :: formals).map Formal.name :=
      fun x hx => List.mem_cons_of_mem _ hx
    -- What is given to the other formals, and left, stays what it is.
    have hrest : ∀ {m : Store} {left : ArgList}, s.Fills frame ((f :: formals).map Formal.name) m →
        ArgList.Lazy s frame left → bindFormals frame formals given.tail left m = .ok () t →
        s.Fills frame ((f :: formals).map Formal.name) t := by
      intro m left hm hleft h
      refine hm.trans (fills_of_bindFormals hm.proper (hm.size ▸ hframe) hdefaults
        (fun v hv => ?_) (hleft.mono hm.before (Nat.le_refl _)) h) hsub
      exact (hgiven v (List.mem_of_mem_tail hv)).mono hm.before (Nat.le_refl _)
    rw [bindFormals_cons] at h
    split at h
    · rename_i hellipsis
      have hellipsis : f.name = .ellipsis := by simpa [Symbol.isEllipsis] using hellipsis
      exact hrest (.set hs (hellipsis ▸ hname) (.dots rfl hleft))
        (fun _ ha => absurd ha List.not_mem_nil) h
    · rw [Eval.bind_apply] at h
      cases hv : formalValue frame f given s with
      | error e m =>
        rw [hv] at h
        cases h
      | ok v m =>
        rw [hv] at h
        obtain ⟨hm, hlazy⟩ := lazy_of_formalValue ((f :: formals).map Formal.name) hs hframe
          hdefault hgiven hv
        exact hrest (hm.trans (.set hm.proper hname (.lazy hlazy)) fun _ hx => hx) hleft h

end

/-- Binding formals does not fail. -/
lemma bindFormals_ok : ∀ (formals : List (Formal CodeUnit)) (given : List (Option Value))
    (left : ArgList) (s : Store), ∃ t, bindFormals frame formals given left s = .ok () t
  | [], _, _, s => ⟨s, rfl⟩
  | f :: formals, given, left, s => by
    rw [bindFormals_cons]
    split
    · exact bindFormals_ok formals given.tail [] (s.set frame .ellipsis (.dots left))
    · have hvalue : ∃ v m, formalValue frame f given s = .ok v m := by
        unfold formalValue
        cases given.head?.join with
        | some v => exact ⟨v, s, rfl⟩
        | none => cases f.default <;> exact ⟨_, _, rfl⟩
      obtain ⟨v, m, hv⟩ := hvalue
      rw [Eval.bind_apply, hv]
      exact bindFormals_ok formals given.tail left (m.set frame f.name v)

/-- If arguments do not match, nothing is done. -/
lemma bindArguments_error {f : FunctionUnit} {call : Call} {args : ArgList} {e : Halt}
    (h : bindArguments f env call args s = .error e t) : t = s := by
  unfold bindArguments at h
  cases hassign : Matching.assign (f.formals.map Formal.name) args with
  | error fault =>
    rw [hassign] at h
    cases h
    rfl
  | ok r =>
    rw [hassign] at h
    dsimp only at h
    rw [Eval.bind_apply, show Eval.child env s = .ok s.environments.size (s.addChild env) from rfl]
      at h
    dsimp only at h
    obtain ⟨m, hm⟩ := @bindFormals_ok s.environments.size f.formals r.1 r.2
      (s.addChild env)
    rw [Eval.bind_apply, hm] at h
    cases h

/-- A compiled function is applied: its formals are bound in a new environment. -/
theorem fills_of_bindArguments [Inherited] {f : FunctionUnit} {call : Call} {args : ArgList} (hs : s.Proper)
    (hf : f.Compiled) (henv : env < s.environments.size)
    (hargs : ArgList.Lazy s s.environments.size args)
    (h : bindArguments f env call args s = .ok frame t) :
    frame = s.environments.size ∧
      (s.addChild env).Fills frame (f.formals.map Formal.name) t := by
  unfold bindArguments at h
  cases hassign : Matching.assign (f.formals.map Formal.name) args with
  | error fault =>
    rw [hassign] at h
    cases h
  | ok r =>
    obtain ⟨given, left⟩ := r
    rw [hassign] at h
    dsimp only at h
    rw [Eval.bind_apply, show Eval.child env s = .ok s.environments.size (s.addChild env) from rfl]
      at h
    dsimp only at h
    rw [Eval.bind_apply] at h
    cases hbind : bindFormals s.environments.size f.formals given left (s.addChild env) with
    | error e m =>
      rw [hbind] at h
      cases h
    | ok x m =>
      rw [hbind] at h
      cases h
      have hgiven := Matching.assign_forall (P := Value.Lazy s s.environments.size) hargs hassign
      have hb := s.before_addChild env
      exact ⟨rfl, fills_of_bindFormals (hs.addChild henv) (by simp)
        (fun x hx u hu => hf.default hx hu) (fun v hv => (hgiven.1 v hv).mono hb (Nat.le_refl _))
        (fun a ha => (hgiven.2 a ha).mono hb (Nat.le_refl _)) hbind⟩

end CallByNeed
