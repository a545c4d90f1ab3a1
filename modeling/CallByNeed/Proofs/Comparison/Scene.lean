import CallByNeed.Proofs.Comparison.Answer

/-!
# Flow bodies side by side

One body, evaluated by hosts that do the same tasks alike, with tables that hold related units.
-/

namespace CallByNeed

open CallByNeed.Flow (Term Thunk Action Frame Scene SlotKey Exit Graph Operands Target Statement
  Label Callee Tables)

variable {W : World} {n m : Nat} {H : Host} {H' : Nat → Host} {env : EnvId} {limit : Nat}

/-! ## Frames -/

/-- The same slots are assigned, to related values. -/
structure FrameRel (W : World) (n : Nat) (F F' : Frame) : Prop where
  slots : ∀ key, Option.Rel (ValueRel W n) (F.slots key) (F'.slots key)
  work : Option.Rel (ArgsRel W n) F.work F'.work

/-- Less may be claimed of what an option holds. -/
lemma optionRel_imp {α β : Type} {R S : α → β → Prop} (hRS : ∀ a b, R a b → S a b) {x : Option α}
    {y : Option β} (h : Option.Rel R x y) : Option.Rel S x y := by
  cases h with
  | none => exact .none
  | some h => exact .some (hRS _ _ h)

lemma FrameRel.mono (hnm : n ≤ m) {F F' : Frame} (h : FrameRel W n F F') : FrameRel W m F F' where
  slots key := optionRel_imp (fun _ _ h => h.mono hnm) (h.slots key)
  work := optionRel_imp (fun _ _ h => h.mono hnm) h.work

/-- Nothing is assigned. -/
lemma FrameRel.empty : FrameRel W n .empty .empty := ⟨fun _ => .none, .none⟩

/-- Frames of evaluations of a body. -/
def FrameRel.kept (W : World) : Kept Frame := ⟨FrameRel W, fun hnm h => h.mono hnm⟩

/-- Steps of evaluating bodies. -/
abbrev ActionRel {α β : Type} (W : World) (n : Nat) (R : Nat → α → β → Prop) (A : Action α)
    (B : Nat → Action β) : Prop := StateRel W (FrameRel.kept W) n R A B

namespace ActionRel

variable {α β γ δ : Type} {R : Nat → α → β → Prop} {R' : Nat → γ → δ → Prop}

/-- An evaluation in a step. -/
lemma lift {E : Eval α} {F : Nat → Eval β} (h : EvalRel W n R E F) :
    ActionRel W n R (Action.lift E) fun k => Action.lift (F k) :=
  StateRel.of_lift h (Action.lift_apply E) fun k => Action.lift_apply (F k)

/-- Both are stuck. -/
lemma stuck (hd : W.defects) : ActionRel W n R Action.stuck fun _ => Action.stuck :=
  lift (.defect hd _ _)

lemma read (hd : W.defects) (key : SlotKey) :
    ActionRel W n (ValueRel W) (Action.read key) fun _ => Action.read key := by
  intro F F' hF
  have hkey := hF.slots key
  show EvalRel W n _ (Action.read key F) fun _ => Action.read key F'
  simp only [Action.read]
  revert hkey
  generalize F.slots key = x
  generalize F'.slots key = x'
  intro hkey
  cases hkey with
  | none => exact stuck hd F F' hF
  | some h => exact EvalRel.pure fun m hm => ⟨h.mono hm, hF.mono hm⟩

lemma work (hd : W.defects) : ActionRel W n (ArgsRel W) Action.work fun _ => Action.work := by
  intro F F' hF
  have hwork := hF.work
  show EvalRel W n _ (Action.work F) fun _ => Action.work F'
  simp only [Action.work]
  revert hwork
  generalize F.work = x
  generalize F'.work = x'
  intro hwork
  cases hwork with
  | none => exact stuck hd F F' hF
  | some h => exact EvalRel.pure fun m hm => ⟨h.mono hm, hF.mono hm⟩

lemma assign (key : SlotKey) {v v' : Value} (hv : ValueRel W n v v') :
    ActionRel W n (fun _ _ _ => True) (Action.assign key v) fun _ => Action.assign key v' := by
  intro F F' hF
  refine EvalRel.pure fun m hm => ⟨trivial, fun k => ?_, (hF.mono hm).work⟩
  unfold Frame.set
  dsimp only
  split
  · exact .some (hv.mono hm)
  · exact (hF.mono hm).slots k

end ActionRel

/-! ## Operands -/

/-- The same identities stand for related units. -/
structure TablesRel (W : World) (T T' : Tables) : Prop where
  thunk : ∀ node, W.code (.unit (T.thunk node)) (.unit (T'.thunk node))
  closure : ∀ node, FunctionRel W (T.closure node) (T'.closure node)
  call : ∀ id, T.call id = T'.call id

namespace Flow.Scene

/-- The scene with another host and other tables. -/
def on (X : Scene) (H : Host) (T : Tables) : Scene := ⟨X.limit, H, X.env, T⟩

section

variable {X : Scene} {T : Tables}

/-- What a builtin gets: the same names, and related values. -/
abbrev GotRel (W : World) (n : Nat) (x x' : List (Option Symbol) × List Value) : Prop :=
  x.1 = x'.1 ∧ ValuesRel W n x.2 x'.2

section

variable (hR : W.Reflexive)
include hR

/-- A builtin gives related results, or the numbers of names and values are a defect. -/
lemma ofResult_rel (b : Builtin) (call : Call) (names : List (Option Symbol))
    {vs vs' : List Value} (hvs : ValuesRel W n vs vs') :
    EvalRel W n (ValueRel W) (ofResult (b.invoke call names vs))
      fun _ => ofResult (b.invoke call names vs') := by
  by_cases hnames : names.length = vs.length
  · exact .ofResult ((b.invoke_answers call hvs hnames).weaken fun _ _ h _ hm => h.mono hm)
  · have hnames' : names.length ≠ vs'.length := fun h => hnames (h.trans hvs.length.symm)
    unfold Builtin.invoke
    rw [if_neg hnames, if_neg hnames']
    exact .defect hR.defects _ _

lemma spliceDots_rel {α : Type} {R : Nat → α → α → Prop}
    (hmono : ∀ {n m a b}, n ≤ m → R n a b → R m a b) (o : Operands Term)
    {give : ArgList → Eval (List α)} {give' : Nat → ArgList → Eval (List α)}
    (hgive : ∀ n dots dots', ArgsRel W n dots dots' →
      EvalRel W n (fun m => List.Forall₂ (R m)) (give dots) fun k => give' k dots')
    {as as' : List α} (has : List.Forall₂ (R n) as as') :
    ActionRel W n (fun m => List.Forall₂ (R m)) (spliceDots o give as)
      fun k => spliceDots o (give' k) as' := by
  unfold spliceDots
  cases o.ellipsisIndex? with
  | none => exact StateRel.pure fun _ hm => has.imp fun _ _ h => hmono hm h
  | some position =>
    refine (ActionRel.work hR.defects).bind fun m hm dots dots' hdots => ?_
    refine StateRel.bind (ActionRel.lift (hgive m dots dots' hdots)) fun m₁ hm₁ es es' hes => ?_
    refine StateRel.pure fun m₂ hm₂ => ?_
    have hall := has.imp fun _ _ h => hmono (Nat.le_trans (Nat.le_trans hm hm₁) hm₂) h
    unfold splicedAt
    exact List.rel_append (List.rel_append (List.forall₂_take _ hall)
      (hes.imp fun _ _ h => hmono hm₂ h)) (List.forall₂_drop _ hall)

omit hR in
lemma keepDots_rel (o : Operands Term) :
    ActionRel W n (fun _ _ _ => True) (X.keepDots o) fun k => (X.on (H' k) T).keepDots o := by
  unfold keepDots
  split
  · refine StateRel.bind (ActionRel.lift .findDots) fun m _ dots dots' hdots => fun F F' hF => ?_
    exact EvalRel.pure fun m₁ hm₁ =>
      ⟨trivial, (hF.mono hm₁).slots, .some (hdots.mono hm₁)⟩
  · exact StateRel.pure fun _ _ => trivial

lemma builtinArguments_rel (hH : HostRel W X.host H') (o : Operands Term)
    {values : Action (List Value)} {values' : Nat → Action (List Value)}
    (hvalues : ∀ m ≥ n, ActionRel W m (ValuesRel W) values values') :
    ActionRel W n (GotRel W) (X.builtinArguments o values)
      fun k => (X.on (H' k) T).builtinArguments o (values' k) := by
  unfold builtinArguments
  refine (keepDots_rel o).bind fun m hm _ _ _ => ?_
  refine StateRel.bind (spliceDots_rel hR (R := fun _ => Eq) (fun _ h => h) o
    (fun n dots dots' hdots => EvalRel.pure fun _ _ => ?_) (List.forall₂_eq_eq_eq ▸ rfl))
    fun m₁ hm₁ names names' hnames => ?_
  · rw [List.forall₂_eq_eq_eq]
    exact hdots.names
  · rw [List.forall₂_eq_eq_eq] at hnames
    refine (hvalues m₁ (Nat.le_trans hm hm₁)).bind fun m₂ hm₂ vs vs' hvs => ?_
    refine StateRel.bind (spliceDots_rel hR (R := ValueRel W) (fun hle h => h.mono hle) o
      (fun n dots dots' hdots => ?_) (valuesRel_iff.1 hvs)) fun m₃ hm₃ ws ws' hws => ?_
    · exact Host.forceEach_rel hH hdots
    · exact StateRel.pure fun m₄ hm₄ =>
        ⟨hnames, valuesRel_iff.2 (hws.imp fun _ _ h => h.mono hm₄)⟩

end

/-! ## Operands -/

section

variable (hR : W.Reflexive) (hW : W.Lawful) (hH : HostRel W X.host H')
  (hT : TablesRel W X.tables T)
include hR hW hH hT

lemma late_rel (d : Thunk) :
    EvalRel W n (ValueRel W) (X.late d) fun k => (X.on (H' k) T).late d := by
  unfold late
  cases d.name? with
  | none => exact Host.executeNested_rel hW hH (hT.thunk d.node) (hR.transparent.valid X.env)
  | some name =>
    exact (EvalRel.findVariable (hR.transparent.readable name)).bind fun _ _ _ _ hv =>
      Host.force_rel hH hv

omit hW hH in
lemma promised_rel (d : Thunk) :
    EvalRel W n (fun _ v v' => v = v' ∧ ∃ id, v = .promise id) (X.promised d)
      fun k => (X.on (H' k) T).promised d := by
  unfold promised
  cases d.name? with
  | none => exact .promise (.code (hT.thunk d.node) (hR.transparent.valid X.env))
  | some name =>
    exact .promise (.reading (hR.transparent.readable name) (hR.transparent.valid X.env))

omit hR hW hT in
lemma callable_rel {call call' : Call} (hcall : call = call') {v v' : Value}
    (hv : ValueRel W n v v') :
    EvalRel W n (ValueRel W) (X.callable call v) fun k => (X.on (H' k) T).callable call' v' := by
  subst hcall
  unfold callable
  refine (Host.force_rel hH (.value hv)).bind fun m _ f f' hf => ?_
  rw [← hf.category]
  split
  · exact EvalRel.pure fun _ hm => hf.mono hm
  · exact .fail False.elim

omit hT in
lemma apply_rel {call call' : Call} (hcall : call = call') {args : Action ArgList} {args' : Nat → Action ArgList}
    (hargs : ∀ m ≥ n, ActionRel W m (ArgsRel W) args args')
    {builtin : Action (List (Option Symbol) × List Value)}
    {builtin' : Nat → Action (List (Option Symbol) × List Value)}
    (hbuiltin : ∀ m ≥ n, ActionRel W m (GotRel W) builtin builtin') {v v' : Value}
    (hv : ValueRel W n v v') :
    ActionRel W n (ValueRel W) (X.apply call args builtin v)
      fun k => (X.on (H' k) T).apply call' (args' k) (builtin' k) v' := by
  subst hcall
  cases hv with
  | builtin b =>
    refine (hbuiltin n (Nat.le_refl n)).bind fun m _ x x' hx => ?_
    obtain ⟨names, vs⟩ := x
    obtain ⟨names', vs'⟩ := x'
    obtain ⟨hnames, hvs⟩ := hx
    dsimp only at hnames hvs
    subst hnames
    exact ActionRel.lift (ofResult_rel hR b call names hvs)
  | closure hf he =>
    refine (hargs n (Nat.le_refl n)).bind fun m hm as as' has => ?_
    exact ActionRel.lift (applyClosure_rel hW hH hf (he.mono hm) call has)
  | special hs =>
    exact ActionRel.lift (Special.invoke_rel hH (hR.transparent.valid X.env)
      (fun a _ => hR.transparent.code a.value) hs)
  | _ => exact ActionRel.stuck hR.defects

mutual

lemma term_rel : ∀ (t : Term) (n : Nat),
    ActionRel W n (ValueRel W) (X.term t) fun k => (X.on (H' k) T).term t
  | .int i, _ => StateRel.pure fun _ _ => .int i
  | .literal e, _ => StateRel.pure fun _ _ => .ofExpr e
  | .temp id, _ => ActionRel.read hR.defects (.temp id)
  | .local id _, _ => ActionRel.read hR.defects (.local id)
  | .env name, _ =>
    ActionRel.lift ((EvalRel.findVariable (hR.transparent.readable name)).bind fun _ _ _ _ hv =>
      Host.force_rel hH hv)
  | .element vector index, n => by
    simp only [term]
    refine (term_rel vector n).bind fun m hm v v' hv => ?_
    refine (term_rel index m).bind fun m₁ hm₁ i i' hi => ?_
    refine StateRel.bind_same (ActionRel.lift (.ofSaid (hi.asInt "integer operand")))
      fun m₂ hm₂ k => ?_
    exact ActionRel.lift ((hv.mono (Nat.le_trans hm₁ hm₂)).element_rel k)
  | .length vector, n => by
    simp only [term]
    refine (term_rel vector n).bind fun m hm v v' hv => ?_
    exact StateRel.bind_same (ActionRel.lift (.ofSaid (Builtin.lengthOf_related hv)))
      fun _ _ k => StateRel.pure fun _ _ => .int k
  | .increment counter, n => by
    simp only [term]
    refine (term_rel counter n).bind fun m hm v v' hv => ?_
    refine StateRel.bind_same (ActionRel.lift (.ofSaid (hv.asInt "integer operand")))
      fun m₂ hm₂ k => ?_
    refine StateRel.bind_same (ActionRel.lift ?_) fun m₃ _ j => StateRel.pure fun _ _ => .int j
    unfold successor
    cases Value.int32? (k.toInt + 1) with
    | none => exact .fail False.elim
    | some j => exact EvalRel.pure fun _ _ => rfl
  | .atLeast left right, n => by
    simp only [term]
    refine (term_rel left n).bind fun m hm a a' ha => ?_
    refine (term_rel right m).bind fun m₁ hm₁ b b' hb => ?_
    exact StateRel.bind_same (ActionRel.lift (.ofSaid ((ha.mono hm₁).atLeast hb)))
      fun _ _ t => StateRel.pure fun _ _ => .logical t
  | .closure node _, _ =>
    StateRel.pure fun _ _ => ValueRel.closure (hT.closure node) (hR.transparent.valid X.env)
  | .thunk d, _ => ActionRel.lift (late_rel hR hW hH hT d)
  | .ellipsis, _ => ActionRel.stuck hR.defects
  | .primitive name ⟨site, args, names⟩, n => by
    simp only [term]
    refine StateRel.bind (builtinArguments_rel hR hH _ fun m _ => values_rel args m)
      fun m hm x x' hx => ?_
    obtain ⟨ns, vs⟩ := x
    obtain ⟨ns', vs'⟩ := x'
    obtain ⟨hns, hvs⟩ := hx
    dsimp only at hns hvs ⊢
    subst hns
    cases Builtin.ofName? name.name with
    | none => exact ActionRel.stuck hR.defects
    | some b =>
      show ActionRel W m _ _ fun _ => Action.lift (ofResult (b.invoke (T.call site.id) ns vs'))
      rw [← hT.call]
      exact ActionRel.lift (ofResult_rel hR b _ ns hvs)
  | .call (.name name) ⟨site, args, names⟩, n => by
    refine StateRel.bind (ActionRel.lift (Host.findFunction_rel hH name)) fun m _ v v' hv => ?_
    exact apply_rel hR hW hH (hT.call site.id) (fun m _ => arguments_rel args names m)
      (fun m _ => builtinArguments_rel hR hH _ fun m _ => values_rel args m)
      (hv.unpinned hR.unpinned).1
  | .call (.computed t) ⟨site, args, names⟩, n => by
    have hterm : ∀ X : Scene, X.term (.call (.computed t) ⟨site, args, names⟩) = (do
        let v ← X.term t
        let f ← Action.lift (X.callable (X.tables.call site.id) v)
        X.apply (X.tables.call site.id) (X.arguments args names)
          (X.builtinArguments ⟨site, args, names⟩ (X.values args)) f) := fun X => by
      simp only [term]
    rw [hterm]
    simp only [hterm]
    refine (term_rel t n).bind fun m _ v v' hv => ?_
    refine StateRel.bind (ActionRel.lift (callable_rel hH (hT.call site.id) hv))
      fun m _ f f' hf => ?_
    exact apply_rel hR hW hH (hT.call site.id) (fun m _ => arguments_rel args names m)
      (fun m _ => builtinArguments_rel hR hH _ fun m _ => values_rel args m) hf

lemma arguments_rel : ∀ (ts : List Term) (names : List (Option Symbol)) (n : Nat),
    ActionRel W n (ArgsRel W) (X.arguments ts names) fun k => (X.on (H' k) T).arguments ts names
  | [], _, _ => StateRel.pure fun _ _ => .nil
  | _ :: _, [], _ => StateRel.pure fun _ _ => .nil
  | t :: ts, name :: names, n => by
    have hrest : ∀ m ≥ n, ∀ as as', ArgsRel W m as as' → ActionRel W m (ArgsRel W)
        (do return as ++ (← X.arguments ts names))
        fun k => do return as' ++ (← (X.on (H' k) T).arguments ts names) := by
      intro m _ as as' has
      refine (arguments_rel ts names m).bind fun m₁ hm₁ bs bs' hbs => ?_
      exact StateRel.pure fun m₂ hm₂ =>
        (has.mono (Nat.le_trans hm₁ hm₂)).append (hbs.mono hm₂)
    have hone : ∀ m ≥ n, ∀ v v', BoundRel W m v v' → v.text = v'.text →
        ActionRel W m (ArgsRel W) (do return [⟨name, v⟩] ++ (← X.arguments ts names))
        fun k => do return [⟨name, v'⟩] ++ (← (X.on (H' k) T).arguments ts names) :=
      fun m hm v v' hv ht => hrest m hm _ _ (.cons hv ht .nil)
    cases t with
    | ellipsis =>
      simp only [arguments]
      exact StateRel.bind (ActionRel.lift .findDots) hrest
    | thunk d =>
      simp only [arguments, pure_bind]
      refine StateRel.bind (ActionRel.lift (promised_rel hR hT d)) fun m hm v v' hv => ?_
      obtain ⟨rfl, id, rfl⟩ := hv
      exact hone m hm _ _ (.promise id) rfl
    | _ =>
      simp only [arguments, pure_bind]
      exact StateRel.bind (term_rel _ n) fun m hm v v' hv =>
        hone m hm v v' (.value hv) (hv.text hR.named)

lemma values_rel : ∀ (ts : List Term) (n : Nat),
    ActionRel W n (ValuesRel W) (X.values ts) fun k => (X.on (H' k) T).values ts
  | [], _ => StateRel.pure fun _ _ => .nil
  | t :: ts, n => by
    have hrest : ∀ m ≥ n, ∀ v v', ValueRel W m v v' → ActionRel W m (ValuesRel W)
        (do return v :: (← X.values ts)) fun k => do
          return v' :: (← (X.on (H' k) T).values ts) := by
      intro m _ v v' hv
      refine (values_rel ts m).bind fun m₁ hm₁ vs vs' hvs => ?_
      exact StateRel.pure fun m₂ hm₂ =>
        .cons (hv.mono (Nat.le_trans hm₁ hm₂)) (hvs.mono hm₂)
    cases t with
    | ellipsis => exact hrest n (Nat.le_refl n) _ _ .null
    | _ => exact StateRel.bind (term_rel _ n) hrest

end

/-! ## Statements -/

/-- The same place to go on, or related values. -/
inductive ExitRel (W : World) (n : Nat) : Exit → Exit → Prop
  | next : ExitRel W n .next .next
  | jump (l : Label) : ExitRel W n (.jump l) (.jump l)
  | ret {v v' : Value} (h : ValueRel W n v v') : ExitRel W n (.ret v) (.ret v')

omit hW hH hT in
lemma store_rel {v v' : Value} (hv : ValueRel W n v v') (target : Target) :
    ActionRel W n (fun _ _ _ => True) (X.store v target)
      fun k => (X.on (H' k) T).store v' target := by
  cases target with
  | temp id => exact ActionRel.assign (.temp id) hv
  | «local» id name => exact ActionRel.assign (.local id) hv
  | env name => exact ActionRel.lift (.setVariable (hR.transparent.settable name) hv)

lemma statement_rel (s : Statement Term) :
    ActionRel W n (ExitRel W) (X.statement s) fun k => (X.on (H' k) T).statement s := by
  cases s with
  | assign target value =>
    refine (term_rel hR hW hH hT value n).bind fun m _ v v' hv => ?_
    exact (store_rel hR hv target).bind fun _ _ _ _ _ => StateRel.pure fun _ _ => .next
  | eval value =>
    exact (term_rel hR hW hH hT value n).bind fun _ _ _ _ _ => StateRel.pure fun _ _ => .next
  | goto l => exact StateRel.pure fun _ _ => .jump l
  | branch condition yes no =>
    refine (term_rel hR hW hH hT condition n).bind fun m _ v v' hv => ?_
    exact StateRel.bind_same (ActionRel.lift (.ofSaid hv.truthy)) fun _ _ t =>
      StateRel.pure fun _ _ => .jump _
  | ret value =>
    refine (term_rel hR hW hH hT value n).bind fun m _ v v' hv => ?_
    exact StateRel.pure fun _ hm => .ret (hv.mono hm)

lemma statements_rel (ss : List (Statement Term)) :
    ActionRel W n (ExitRel W) (X.statements ss) fun k => (X.on (H' k) T).statements ss := by
  induction ss generalizing n with
  | nil => exact StateRel.pure fun _ _ => .next
  | cons s ss ih =>
    refine (statement_rel hR hW hH hT s).bind fun m _ e e' he => ?_
    cases he with
    | next => exact ih
    | jump l => exact StateRel.pure fun _ _ => .jump l
    | ret hv => exact StateRel.pure fun _ hm => .ret (hv.mono hm)

/-! ## Graphs -/

lemma blocks_rel (g : Graph) (b position : Nat) :
    ActionRel W n (ValueRel W) (X.blocks g b position)
      fun k => (X.on (H' k) T).blocks g b position := by
  induction b generalizing n position with
  | zero => exact ActionRel.lift (.throw False.elim)
  | succ b ih =>
    unfold blocks
    cases g[position]? with
    | none => exact ActionRel.stuck hR.defects
    | some block =>
      refine (statements_rel hR hW hH hT block.statements).bind fun m _ e e' he => ?_
      cases he with
      | next => exact ActionRel.stuck hR.defects
      | ret hv => exact StateRel.pure fun _ hm => hv.mono hm
      | jump l =>
        dsimp only
        cases g.blockOf? l with
        | none => exact ActionRel.stuck hR.defects
        | some position => exact ih position

/-- A graph gives related values on both hosts. -/
theorem graph_rel (g : Graph) (b : Nat) :
    EvalRel W n (ValueRel W) (X.graph g b) fun k => (X.on (H' k) T).graph g b := by
  have hgraph : ∀ X : Scene, X.graph g b = X.blocks g b 0 .empty >>= fun x => pure x.1 := by
    intro X
    funext s
    rw [Eval.bind_apply]
    unfold graph
    cases X.blocks g b 0 .empty s <;> rfl
  simp only [hgraph]
  refine EvalRel.bind (blocks_rel hR hW hH hT g b 0 .empty .empty .empty) fun m _ x x' hx => ?_
  exact EvalRel.pure fun _ hm => hx.1.mono hm

end

end

end Flow.Scene

end CallByNeed
