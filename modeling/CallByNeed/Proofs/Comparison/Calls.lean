import CallByNeed.Proofs.Comparison.Store

/-!
# Forcing and calling side by side

Hosts that do the same tasks alike force related promises alike, find the same functions, and apply
related closures to related arguments alike.
-/

namespace CallByNeed

/-- What every world keeps to. -/
structure World.Lawful (W : World) : Prop where
  /-- Depths agree only when code is of the same kind, which is evaluated at the same depth. -/
  level : W.deep → ∀ c c', W.code c c' → ((∃ u, c = .unit u) ↔ ∃ u, c' = .unit u)
  /-- If depths do not agree, then running into their limit excuses everything. -/
  depth : ¬ W.deep → ∀ limit, W.dropped (.depthExceeded limit)
  /-- Defects excuse nothing. -/
  sound : ∀ e, W.dropped e → ¬ e.IsInternal

variable {W : World} {n : Nat} {H : Host} {H' : Nat → Host} {env : EnvId} {limit : Nat}

/-! ## Functions -/

/-- What is found when a function of some name is called: a function that may be had as a value, or
a form under its own name. -/
inductive FoundRel (W : World) (name : Symbol) (n : Nat) (v v' : Value) : Prop
  | value (h : ValueRel W n v v') (hf : v.category?.isSome) : FoundRel W name n v v'
  | form (s : Special) (hs : ¬ W.Loose s) (hname : name = ⟨s.name⟩) (hv : v = .special s)
    (hv' : v' = .special s) : FoundRel W name n v v'

lemma BindingRel.category {name : Symbol} {v v' : Value} (h : BindingRel W n name v v') :
    v.category? = v'.category? := by
  cases h with
  | bound h =>
    cases h with
    | value h => exact h.category
    | promise p => rfl
  | form hs => rfl
  | dots h => rfl

lemma FoundRel.of_binding {name : Symbol} {v v' : Value} (h : BindingRel W n name v v')
    (hf : v.category?.isSome) : FoundRel W name n v v' := by
  cases h with
  | bound h =>
    cases h with
    | value h => exact .value h hf
    | promise p => cases hf
  | form hs => exact .form _ hs rfl rfl rfl
  | dots h => cases hf

/-- Without pinned names every function may be had as a value. -/
lemma FoundRel.unpinned {name : Symbol} {v v' : Value} (hp : ¬ W.pins)
    (h : FoundRel W name n v v') : ValueRel W n v v' ∧ v.category?.isSome := by
  cases h with
  | value h hf => exact ⟨h, hf⟩
  | form s hs => exact absurd (fun h => absurd h hp) hs

/-! ## Forcing -/

namespace Host

lemma force_rel (hH : HostRel W H H') {v v' : Value} (hv : BoundRel W n v v') :
    EvalRel W n (ValueRel W) (H.force v) fun k => (H' k).force v' := by
  cases hv with
  | promise p => exact hH n _ _ (.force p)
  | value hv =>
    cases hv with
    | promise _ p => exact hH n _ _ (.force p)
    | _ =>
      refine EvalRel.pure fun m hm => ?_
      refine ValueRel.mono hm ?_
      constructor <;> assumption

/-- Arguments, forced one after the other. -/
lemma forceEach_rel (hH : HostRel W H H') {as as' : ArgList} (h : ArgsRel W n as as') :
    EvalRel W n (fun m => List.Forall₂ (ValueRel W m)) (as.mapM fun a => H.force a.value)
      fun k => as'.mapM fun a => (H' k).force a.value :=
  EvalRel.mapM (L := ArgRel W) (fun hle h => ⟨h.name, h.value.mono hle, h.text⟩)
    (fun hle h => h.mono hle) (fun _ _ _ ha => force_rel hH ha.value) (argsRel_iff.1 h)

/-- What a variable is bound to is forced alike. -/
lemma forceBinding_rel (hH : HostRel W H H') {name : Symbol} {v v' : Value}
    (hv : BindingRel W n name v v') :
    EvalRel W n (fun m => BindingRel W m name) (H.force v) fun k => (H' k).force v' := by
  cases hv with
  | bound h => exact (force_rel hH h).weaken fun _ _ _ _ h => .bound (.value h)
  | form hs => exact EvalRel.pure fun _ _ => .form hs
  | dots h => exact EvalRel.pure fun _ hm => .dots (h.mono hm)

/-- The same function is found in the same environments. -/
lemma functionIn_rel (hH : HostRel W H H') (name : Symbol) (envs : List EnvId) :
    EvalRel W n (FoundRel W name) (H.functionIn name envs)
      fun k => (H' k).functionIn name envs := by
  induction envs generalizing n with
  | nil => exact .fail False.elim
  | cons e envs ih =>
    refine .get fun s t hst _ => ?_
    have hv := hst.local? e name
    revert hv
    generalize s.local? e name = v
    generalize t.local? e name = v'
    intro hv
    cases hv with
    | none => exact ih
    | some hv =>
      refine (forceBinding_rel hH hv).bind fun m _ f f' hf => ?_
      simp only [← hf.category]
      split
      · exact EvalRel.pure fun _ hm => .of_binding (hf.mono hm) ‹_›
      · exact ih

lemma findFunction_rel (hH : HostRel W H H') (name : Symbol) :
    EvalRel W n (FoundRel W name) (H.findFunction env name)
      fun k => (H' k).findFunction env name := by
  refine .get fun s t hst _ => ?_
  simp only [← hst.chain]
  exact functionIn_rel hH name _

/-- The unit of related code, executed one level deeper. -/
lemma executeNested_rel (hW : W.Lawful) (hH : HostRel W H H') {u u' : CodeUnit}
    (hu : W.code (.unit u) (.unit u')) (henv : W.Valid n env) :
    EvalRel W n (ValueRel W) (H.executeNested limit u env)
      fun k => (H' k).executeNested limit u' env := by
  have htask := hH n _ _ (.code hu henv)
  by_cases hd : W.deep
  · exact htask.enter_deep hd limit
  · exact (htask.enter_right hd (hW.depth hd) limit).enter_left hd (hW.depth hd) limit

end Host

/-- What related promises stand for has related values. -/
lemma Suspension.value_rel (hW : W.Lawful) (hH : HostRel W H H') {p p' : Suspension}
    (hp : SuspensionRel W n p p') :
    EvalRel W n (ValueRel W) (p.value limit H) fun k => p'.value limit (H' k) := by
  cases hp with
  | reading hname _ =>
    exact (EvalRel.findVariable hname).bind fun _ _ _ _ hv => Host.force_rel hH hv
  | missing name => exact .fail False.elim
  | @code c c' env hc henv =>
    have htask := hH n _ _ (.code hc henv)
    cases c with
    | unit u =>
      cases c' with
      | unit u' => exact Host.executeNested_rel hW hH hc henv
      | expr e' =>
        have hd : ¬ W.deep := fun hd => by simpa using (hW.level hd _ _ hc).1 ⟨u, rfl⟩
        exact htask.enter_left hd (hW.depth hd) limit
    | expr e =>
      cases c' with
      | unit u' =>
        have hd : ¬ W.deep := fun hd => by simpa using (hW.level hd _ _ hc).2 ⟨u', rfl⟩
        exact htask.enter_right hd (hW.depth hd) limit
      | expr e' => exact htask

/-- The promise has its value, or may be forced again. -/
def Suspension.settle (p : PromiseId) (x : Suspension) : Except Halt Value → Store → Store
  | .ok v, s => s.setStatus p (.forced v)
  | .error _, s => s.setStatus p (.pending x)

lemma Suspension.settle_eq (p : PromiseId) (x : Suspension) :
    x.settle p = fun outcome store =>
      match outcome with
      | .ok v => store.setStatus p (.forced v)
      | .error _ => store.setStatus p (.pending x) := by
  funext outcome store
  cases outcome <;> rfl

/-- Forcing a promise, by how far it is. -/
lemma forcePromise_apply (limit : Nat) (host : Host) (p : PromiseId) (s : Store) :
    forcePromise limit host p s = match s.promises[p]?.map Promise.status with
      | some (.forced v) => .ok v s
      | some (.forcing _) => .error (.error .promiseRecursion) s
      | some (.pending x) => (x.value limit host).settled (x.settle p) (s.begin p x)
      | none => .ok .null s := by
  unfold forcePromise
  rw [Eval.get_bind_apply]
  cases s.promises[p]?.map Promise.status with
  | none => rfl
  | some status =>
    cases status with
    | forced v => rfl
    | forcing x => rfl
    | pending x =>
      dsimp only
      rw [Suspension.settle_eq]
      rfl

/-- A promise is forced alike in both stores. -/
theorem forcePromise_rel (hW : W.Lawful) (hH : HostRel W H H') (p : PromiseId) :
    EvalRel W n (ValueRel W) (forcePromise limit H p) fun k => forcePromise limit (H' k) p := by
  intro s t hst _
  have hp := hst.promises.getElem? p
  cases hs : s.promises[p]? with
  | none =>
    cases ht : t.promises[p]? with
    | some q' => simp [hs, ht] at hp
    | none =>
      rw [forcePromise_apply, hs]
      refine .same ⟨0, fun k _ => ?_⟩ (.ok .null hst (.refl s) (.refl t))
      show forcePromise limit (H' k) p t = _
      rw [forcePromise_apply, ht]
      rfl
  | some q =>
    cases ht : t.promises[p]? with
    | none => simp [hs, ht] at hp
    | some q' =>
      obtain ⟨status, count⟩ := q
      obtain ⟨status', count'⟩ := q'
      rw [hs, ht] at hp
      cases hp with
      | some hq =>
        rw [forcePromise_apply, hs]
        cases hq.status with
        | forced hv =>
          refine .same ⟨0, fun k _ => ?_⟩ (.ok hv hst (.refl s) (.refl t))
          show forcePromise limit (H' k) p t = _
          rw [forcePromise_apply, ht]
          rfl
        | forcing _ =>
          refine .same ⟨0, fun k _ => ?_⟩ (.error (.refl False.elim) hst (.refl s) (.refl t))
          show forcePromise limit (H' k) p t = _
          rw [forcePromise_apply, ht]
          rfl
        | @pending x x' hx =>
          have hvalue : EvalRel W _ (ValueRel W) (x.value limit H) fun k => x'.value limit (H' k) :=
            Suspension.value_rel hW hH hx
          have hpending := hvalue.bracket s t
            (·.begin p x) (·.begin p x') (x.settle p) (x'.settle p) (Nat.le_refl _)
            (hst.begin p hx) rfl rfl (fun r _ => by cases r <;> rfl)
            (fun r _ => by cases r <;> rfl)
            (fun _ _ _ _ hst' _ hv => hst'.setStatus p (.forced hv))
            (fun _ _ _ _ hst' hle => hst'.setStatus p (.pending (hx.mono hle)))
          refine hpending.congr fun k => ?_
          rw [forcePromise_apply, ht]
          rfl

/-! ## Matching -/

namespace Matching

variable {as as' named named' : ArgList}

/-- The same values are taken, and the same arguments are left. -/
abbrev TakenRel (W : World) (n : Nat) (x x' : Value × ArgList) : Prop :=
  BoundRel W n x.1 x'.1 ∧ List.Forall₂ (ArgRel W n) x.2 x'.2

/-- The same values are given to formals, and the same arguments are left. -/
abbrev GivenRel (W : World) (n : Nat) (x x' : List (Option Value) × ArgList) : Prop :=
  List.Forall₂ (Option.Rel (BoundRel W n)) x.1 x'.1 ∧ List.Forall₂ (ArgRel W n) x.2 x'.2

/-- What remains behind an argument that is passed over. -/
lemma taken_cons {a a' : Arg Value} (ha : ArgRel W n a a')
    {x x' : Option (Value × ArgList)} (h : Option.Rel (TakenRel W n) x x') :
    Option.Rel (TakenRel W n) (x.map fun found => (found.1, a :: found.2))
      (x'.map fun found => (found.1, a' :: found.2)) := by
  cases h with
  | none => exact .none
  | some h => exact .some ⟨h.1, .cons ha h.2⟩

lemma takeUnnamed_rel (h : List.Forall₂ (ArgRel W n) as as') :
    Option.Rel (TakenRel W n) (takeUnnamed as) (takeUnnamed as') := by
  induction h with
  | nil => exact .none
  | @cons a a' as as' ha has ih =>
    unfold takeUnnamed
    rw [← ha.name]
    cases a.name with
    | none => exact .some ⟨ha.value, has⟩
    | some _ => exact taken_cons ha ih

lemma takeNamed_rel (name : Symbol) (h : List.Forall₂ (ArgRel W n) as as') :
    Option.Rel (TakenRel W n) (takeNamed name as) (takeNamed name as') := by
  induction h with
  | nil => exact .none
  | @cons a a' as as' ha has ih =>
    unfold takeNamed
    rw [← ha.name]
    split
    · exact .some ⟨ha.value, has⟩
    · exact taken_cons ha ih

lemma byName_rel (formals : List Symbol) (h : List.Forall₂ (ArgRel W n) named named') :
    List.Forall₂ (Option.Rel (BoundRel W n)) (byName named formals) (byName named' formals) := by
  induction formals generalizing named named' with
  | nil => exact .nil
  | cons f formals ih =>
    unfold byName
    cases f.isEllipsis with
    | true => exact .cons .none (ih h)
    | false =>
      have hf := takeNamed_rel f h
      simp only [Bool.false_eq_true, if_false]
      revert hf
      generalize takeNamed f named = x
      generalize takeNamed f named' = x'
      intro hf
      cases hf with
      | none => exact .cons .none (ih h)
      | some hx => exact .cons (.some hx.1) (ih hx.2)

lemma fill_rel (formals : List Symbol) (hn : List.Forall₂ (ArgRel W n) named named')
    (ho : List.Forall₂ (ArgRel W n) as as') :
    GivenRel W n (fill named as formals) (fill named' as' formals) := by
  induction formals generalizing named named' as as' with
  | nil => exact ⟨.nil, ho⟩
  | cons f formals ih =>
    unfold fill
    split
    · exact ⟨byName_rel _ hn, ho⟩
    · have hf := takeNamed_rel f hn
      revert hf
      generalize takeNamed f named = x
      generalize takeNamed f named' = x'
      intro hf
      cases hf with
      | some hx =>
        obtain ⟨hgiven, hleft⟩ := ih hx.2 ho
        exact ⟨.cons (.some hx.1) hgiven, hleft⟩
      | none =>
        have hu := takeUnnamed_rel ho
        revert hu
        generalize takeUnnamed as = y
        generalize takeUnnamed as' = y'
        intro hu
        cases hu with
        | some hy =>
          obtain ⟨hgiven, hleft⟩ := ih hn hy.2
          exact ⟨.cons (.some hy.1) hgiven, hleft⟩
        | none =>
          obtain ⟨hgiven, hleft⟩ := ih hn ho
          exact ⟨.cons .none hgiven, hleft⟩

/-- Arguments that do not match are the same, with the same text. -/
theorem assign_rel (formals : List Symbol) (h : List.Forall₂ (ArgRel W n) as as') :
    Answers (fun _ => False) (GivenRel W n) (assign formals as) (assign formals as') := by
  have hnamed : ∀ a a', ArgRel W n a a' → isNamed formals a = isNamed formals a' := by
    intro a a' ha
    unfold isNamed
    rw [ha.name]
  have hin := List.rel_filter (p := isNamed formals) (q := isNamed formals)
    (fun a a' ha => iff_of_eq (congrArg (· = true) (hnamed a a' ha))) h
  have hout := List.rel_filter (p := fun a => !isNamed formals a)
    (q := fun a => !isNamed formals a)
    (fun a a' ha => iff_of_eq (congrArg (fun b => (!b) = true) (hnamed a a' ha))) h
  have hnames : (as.filter (isNamed formals)).filterMap Arg.name
      = (as'.filter (isNamed formals)).filterMap Arg.name := by
    revert hin
    generalize as.filter (isNamed formals) = bs
    generalize as'.filter (isNamed formals) = bs'
    intro hin
    induction hin with
    | nil => rfl
    | cons ha _ ih => rw [List.filterMap_cons, List.filterMap_cons, ha.name, ih]
  have hfill := fill_rel formals hin hout
  unfold assign
  dsimp only
  rw [hnames]
  split
  · exact .error id
  · revert hfill
    generalize fill (as.filter _) (as.filter _) formals = x
    generalize fill (as'.filter _) (as'.filter _) formals = x'
    obtain ⟨given, left⟩ := x
    obtain ⟨given', left'⟩ := x'
    rintro ⟨hgiven, hleft⟩
    dsimp only
    cases hleft with
    | nil => cases formals.any Symbol.isEllipsis <;> exact .ok ⟨hgiven, .nil⟩
    | @cons a a' left left' ha hleft =>
      cases formals.any Symbol.isEllipsis with
      | true => exact .ok ⟨hgiven, .cons ha hleft⟩
      | false =>
        have htext : argText a = argText a' := by
          unfold argText
          rw [ha.name, ha.text]
        simp only [htext]
        exact .error id

end Matching

/-! ## Binding -/

/-- Only variables of one environment may differ. -/
structure Store.Within (frame : EnvId) (s s' : Store) : Prop where
  size : s'.environments.size = s.environments.size
  chain : ∀ e, s'.chain e = s.chain e
  elsewhere : ∀ e ≠ frame, ∀ x, s'.local? e x = s.local? e x

namespace Store.Within

variable {frame : EnvId} {s s' s'' : Store}

lemma refl (frame : EnvId) (s : Store) : s.Within frame s := ⟨rfl, fun _ => rfl, fun _ _ _ => rfl⟩

lemma trans (h : Store.Within frame s s') (h' : Store.Within frame s' s'') :
    Store.Within frame s s'' :=
  ⟨h'.size.trans h.size, fun e => (h'.chain e).trans (h.chain e), fun e he x => (h'.elsewhere e he x).trans (h.elsewhere e he x)⟩

lemma of_eq (h : s'.environments = s.environments) : Store.Within frame s s' :=
  ⟨by rw [h], fun e => by unfold Store.chain; rw [h], fun e _ x => by unfold Store.local?; rw [h]⟩

lemma set (s : Store) (frame : EnvId) (name : Symbol) (v : Value) :
    Store.Within frame s (s.set frame name v) :=
  ⟨size_set .., fun e => chain_set s frame e name v,
    fun _ he x => local?_set_of_ne_env s he name x v⟩

end Store.Within

/-- What a formal other than `...` is bound to. -/
def formalValue (env : EnvId) (f : Formal CodeUnit) (given : List (Option Value)) : Eval Value :=
  match given.head?.join, f.default with
  | some v, _ => pure v
  | none, some unit => Eval.promise (.compiled unit env)
  | none, none => Eval.promise (.missing f.name)

lemma bindFormals_cons (env : EnvId) (f : Formal CodeUnit) (formals : List (Formal CodeUnit))
    (given : List (Option Value)) (left : ArgList) :
    bindFormals env (f :: formals) given left =
      (if f.name.isEllipsis then do
        Eval.setVariable env .ellipsis (.dots left)
        bindFormals env formals given.tail []
      else do
        let v ← formalValue env f given
        Eval.setVariable env f.name v
        bindFormals env formals given.tail left) := by
  rw [bindFormals]
  split
  · rfl
  · unfold formalValue
    cases given.head?.join with
    | some v => rfl
    | none => cases f.default <;> rfl

section

variable {frame : EnvId} {f f' : Formal CodeUnit} {formals formals' : List (Formal CodeUnit)}
  {given given' : List (Option Value)} {left left' : ArgList}

lemma formalValue_rel (hf : FormalRel W f f')
    (hgiven : List.Forall₂ (Option.Rel (BoundRel W n)) given given') (hframe : W.Valid n frame)
    {s t : Store} (hst : StoreRel W s t) (hsize : s.environments.size = n) :
    ∃ v s' v' t', formalValue frame f given s = .ok v s' ∧ formalValue frame f' given' t = .ok v' t' ∧
      BoundRel W n v v' ∧ StoreRel W s' t' ∧ s'.environments = s.environments ∧
      t'.environments = t.environments := by
  have hhead : Option.Rel (BoundRel W n) given.head?.join given'.head?.join := by
    cases hgiven with
    | nil => exact .none
    | cons h _ => exact h
  have hpromise : ∀ {x x' : Suspension}, SuspensionRel W n x x' →
      ∃ v s' v' t', Eval.promise x s = .ok v s' ∧ Eval.promise x' t = .ok v' t' ∧
        BoundRel W n v v' ∧ StoreRel W s' t' ∧ s'.environments = s.environments ∧
        t'.environments = t.environments := by
    intro x x' hx
    refine ⟨_, _, _, _, rfl, rfl, ?_, hst.addPromise ⟨.pending ?_, rfl⟩, rfl, rfl⟩
    · rw [hst.promises.size]
      exact .promise _
    · exact hsize ▸ hx
  unfold formalValue
  revert hhead
  generalize given.head?.join = x
  generalize given'.head?.join = x'
  intro hhead
  cases hhead with
  | some hv => exact ⟨_, _, _, _, rfl, rfl, hv, hst, rfl, rfl⟩
  | none =>
    have hdefault := hf.default
    rw [hf.name]
    revert hdefault
    generalize f.default = d
    generalize f'.default = d'
    intro hdefault
    cases hdefault with
    | none => exact hpromise (.missing _)
    | some hc => exact hpromise (.code hc hframe)

/-- Formals are bound to related values, and nothing but their environment changes. -/
lemma bindFormals_rel (hformals : List.Forall₂ (FormalRel W) formals formals')
    (hgiven : List.Forall₂ (Option.Rel (BoundRel W n)) given given')
    (hleft : ArgsRel W n left left') (hframe : W.Valid n frame) {s t : Store}
    (hst : StoreRel W s t) (hsize : s.environments.size = n) :
    ∃ s' t', bindFormals frame formals given left s = .ok () s' ∧
      bindFormals frame formals' given' left' t = .ok () t' ∧ StoreRel W s' t' ∧
      Store.Within frame s s' ∧ Store.Within frame t t' := by
  induction hformals generalizing given given' left left' s t with
  | nil => exact ⟨s, t, rfl, rfl, hst, .refl frame s, .refl frame t⟩
  | @cons f f' formals formals' hf _ ih =>
    have htail : List.Forall₂ (Option.Rel (BoundRel W n)) given.tail given'.tail := by
      cases hgiven with
      | nil => exact .nil
      | cons _ h => exact h
    rw [bindFormals_cons, bindFormals_cons, ← hf.name]
    by_cases hdots : f.name.isEllipsis = true
    · rw [if_pos hdots, if_pos hdots]
      have hname : f.name = .ellipsis := of_decide_eq_true hdots
      obtain ⟨s', t', hs, ht, hst', hin, hin'⟩ := ih htail .nil
        (hst.set frame (hname ▸ hf.bindable) (.dots (hsize ▸ hleft)))
        ((Store.size_set ..).trans hsize)
      exact ⟨s', t', hs, ht, hst', (Store.Within.set ..).trans hin,
        (Store.Within.set ..).trans hin'⟩
    · rw [if_neg hdots, if_neg hdots]
      obtain ⟨v, s₁, v', t₁, hv, hv', hvv, hst₁, hs₁, ht₁⟩ :=
        formalValue_rel hf hgiven hframe hst hsize
      have hsize₁ : s₁.environments.size = n := by rw [hs₁, hsize]
      obtain ⟨s', t', hs, ht, hst', hin, hin'⟩ := ih htail hleft
        (hst₁.set frame hf.bindable (.bound (hsize₁ ▸ hvv))) ((Store.size_set ..).trans hsize₁)
      refine ⟨s', t', ?_, ?_, hst', ((Store.Within.of_eq hs₁).trans (Store.Within.set ..)).trans hin,
        ((Store.Within.of_eq ht₁).trans (Store.Within.set ..)).trans hin'⟩
      · rw [Eval.bind_apply, hv]
        exact hs
      · rw [Eval.bind_apply, hv']
        exact ht

end

/-- Related closures get related frames, with the same number. -/
lemma bindArguments_rel {f f' : FunctionUnit} (hf : FunctionRel W f f') (henv : W.Valid n env)
    (call : Call) {as as' : ArgList} (has : ArgsRel W n as as') :
    EvalRel W n (fun m e e' => e = e' ∧ W.Valid m e) (bindArguments f env call as)
      fun _ => bindArguments f' env call as' := by
  have hnames : f.formals.map Formal.name = f'.formals.map Formal.name := by
    have hformals := hf.formals
    revert hformals
    generalize f.formals = fs
    generalize f'.formals = fs'
    intro hformals
    induction hformals with
    | nil => rfl
    | cons h _ ih => rw [List.map_cons, List.map_cons, h.name, ih]
  have hassign := Matching.assign_rel (f.formals.map Formal.name) (argsRel_iff.1 has)
  unfold bindArguments
  rw [← hnames]
  revert hassign
  generalize Matching.assign (f.formals.map Formal.name) as = x
  generalize Matching.assign (f.formals.map Formal.name) as' = x'
  intro hassign
  cases hassign with
  | error _ => exact .fail False.elim
  | @ok x x' h =>
    obtain ⟨given, left⟩ := x
    obtain ⟨given', left'⟩ := x'
    obtain ⟨hgiven, hleft⟩ := h
    intro s t hst hn
    have hN : n ≤ s.environments.size + 1 := Nat.le_succ_of_le hn
    have hgiven' : List.Forall₂ (Option.Rel (BoundRel W (s.environments.size + 1))) given given' :=
      hgiven.imp fun _ _ h => by
        cases h with
        | none => exact .none
        | some h => exact .some (h.mono hN)
    have hframe : W.Valid (s.environments.size + 1) s.environments.size := fun _ => Nat.lt_succ_self _
    obtain ⟨s', t', hs, ht, hst', hin, hin'⟩ := bindFormals_rel hf.formals hgiven'
      ((argsRel_iff.2 hleft).mono hN) hframe (hst.addChild (henv.mono hn))
      (Store.size_addChild s env)
    have hrun : ∀ (s s' : Store) formals given left,
        bindFormals s.environments.size formals given left (s.addChild env) = .ok () s' →
        (do
          let frame ← Eval.child env
          bindFormals frame formals given left
          return frame : Eval EnvId) s = .ok s.environments.size s' := by
      intro s s' formals given left h
      show (bindFormals s.environments.size formals given left >>= fun _ => _) (s.addChild env) = _
      rw [Eval.bind_apply, h]
      rfl
    have hgrows : ∀ {s s' : Store}, Store.Within s.environments.size (s.addChild env) s' →
        s.Grows W s' := by
      intro s s' hin
      refine ⟨?_, fun e he => ?_, fun _ _ e he => ?_⟩
      · rw [hin.size, Store.size_addChild]
        exact Nat.le_succ _
      · rw [hin.chain, Store.chain_addChild_of_lt s env he]
      · rw [hin.elsewhere e (Nat.ne_of_lt he), Store.local?_addChild]
    rw [hst.size] at ht hin'
    dsimp only
    rw [hrun s s' _ _ _ hs]
    refine .same ⟨0, fun _ _ => hrun t t' _ _ _ ht⟩ (.ok ⟨hst.size, ?_⟩ hst' (hgrows hin)
      (hgrows hin'))
    rw [hin.size, Store.size_addChild]
    exact hframe

/-- Related closures are applied alike. -/
theorem applyClosure_rel (hW : W.Lawful) (hH : HostRel W H H') {f f' : FunctionUnit}
    (hf : FunctionRel W f f') (henv : W.Valid n env) (call : Call) {as as' : ArgList}
    (has : ArgsRel W n as as') :
    EvalRel W n (ValueRel W) (applyClosure limit H f env call as)
      fun k => applyClosure limit (H' k) f' env call as' := by
  refine (bindArguments_rel hf henv call has).bind fun m _ frame frame' hframe => ?_
  obtain ⟨rfl, hvalid⟩ := hframe
  exact Host.executeNested_rel hW hH hf.body hvalid

end CallByNeed
