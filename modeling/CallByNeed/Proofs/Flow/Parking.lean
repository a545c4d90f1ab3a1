import CallByNeed.Proofs.Comparison.Meanings
import CallByNeed.Proofs.Source.Operands

/-!
# Where the caller's `...` is kept

While the arguments of a builtin are evaluated, the `...` of the call is kept in the one place that
a frame has for it. An argument that is itself such a call takes the place over; any other operand
leaves it alone (`Scene.term_spares`). So a builtin whose arguments pass no `...` on gets names and
values from one and the same `...`, the one that was found first (`Scene.builtinArguments_eq`), and
then it gets as many names as values (`Scene.builtinArguments_lengths`). The arguments that are
drafted for an expression never pass `...` on (`spareDots_of_draftedNow`,
`spareDots_of_draftedLate`); only a body that was not drafted for one can.
-/

namespace CallByNeed.Flow

/-! ## Leaving the place alone -/

mutual

/-- No call that is evaluated with the operand passes `...` on. -/
def Term.sparesDots : Term → Bool
  | .element vector index => vector.sparesDots && index.sparesDots
  | .length vector => vector.sparesDots
  | .increment counter => counter.sparesDots
  | .atLeast left right => left.sparesDots && right.sparesDots
  | .primitive _ ⟨_, args, _⟩ => !args.any Term.isEllipsis && spareDots args
  | .call (.name _) ⟨_, args, _⟩ => !args.any Term.isEllipsis && spareDots args
  | .call (.computed t) ⟨_, args, _⟩ =>
    t.sparesDots && !args.any Term.isEllipsis && spareDots args
  | _ => true

/-- None of the operands passes `...` on in a call of its own. -/
def spareDots : List Term → Bool
  | [] => true
  | t :: ts => t.sparesDots && spareDots ts

end

section

variable {α β : Type}

/-- What gives a value in two steps gives one in each of them. -/
lemma Action.bind_eq_ok {A : Action α} {f : α → Action β} {F G : Frame} {s t : Store} {b : β}
    (h : (A >>= f) F s = .ok (b, G) t) :
    ∃ a F' s', A F s = .ok (a, F') s' ∧ f a F' s' = .ok (b, G) t := by
  rw [bind_apply] at h
  cases hA : A F s with
  | ok r s' =>
    rw [hA] at h
    exact ⟨r.1, r.2, s', rfl, h⟩
  | error e s' =>
    rw [hA] at h
    cases h

/-- An evaluation leaves the frame alone. -/
lemma Action.lift_eq_ok {act : Eval α} {F G : Frame} {s t : Store} {a : α}
    (h : Action.lift act F s = .ok (a, G) t) : act s = .ok a t ∧ G = F := by
  rw [lift_apply] at h
  cases hact : act s with
  | ok b s' =>
    rw [hact] at h
    cases h
    exact ⟨rfl, rfl⟩
  | error e s' =>
    rw [hact] at h
    cases h

/-- The action leaves the caller's `...` where it is kept. -/
def Action.Spares (A : Action α) : Prop :=
  ∀ F s a G t, A F s = .ok (a, G) t → G.work = F.work

namespace Action.Spares

lemma pure (a : α) : Spares (Pure.pure a : Action α) := by
  intro F s b G t h
  cases h
  rfl

lemma lift (act : Eval α) : Spares (Action.lift act) := by
  intro F s a G t h
  rw [(lift_eq_ok h).2]

lemma bind {A : Action α} {f : α → Action β} (h : Spares A) (h' : ∀ a, Spares (f a)) :
    Spares (A >>= f) := by
  intro F s b G t hrun
  obtain ⟨a, F', u, hA, hf⟩ := bind_eq_ok hrun
  exact (h' a F' u b G t hf).trans (h F s a F' u hA)

lemma read (key : SlotKey) : Spares (Action.read key) := by
  intro F s v G t h
  rw [read_apply] at h
  cases hslot : F.slots key with
  | some w =>
    rw [hslot] at h
    cases h
    rfl
  | none =>
    rw [hslot] at h
    cases h

end Action.Spares

end

lemma Term.sparesDots_of_isTrivial {t : Term} (h : t.isTrivial = true) : t.sparesDots = true := by
  cases t <;> first | rfl | cases h

lemma spareDots_cons {t : Term} {ts : List Term} (ht : t.sparesDots = true)
    (hts : spareDots ts = true) : spareDots (t :: ts) = true := by
  rw [spareDots, ht, hts]
  rfl

/-- Arguments that are evaluated at once pass no `...` on: each is settled before the call. -/
lemma spareDots_of_draftedNow {options : CompilerOptions} : ∀ {args : List (Arg Expr)}
    {lo hi : Taken} {ts : List Term} {b : Body}, DraftedNow options args lo ts b hi →
      spareDots ts = true
  | _, _, _, _, _, .nil => rfl
  | _, _, _, _, _, .ellipsis _ hrest => spareDots_cons rfl (spareDots_of_draftedNow hrest)
  | _, _, _, _, _, .trivial _ _ ht hrest =>
    spareDots_cons (Term.sparesDots_of_isTrivial ht) (spareDots_of_draftedNow hrest)
  | _, _, _, _, _, .settled _ _ _ hrest => spareDots_cons rfl (spareDots_of_draftedNow hrest)

/-- Arguments that are evaluated late pass no `...` on: each has a body of its own. -/
lemma spareDots_of_draftedLate {options : CompilerOptions} : ∀ {args : List (Arg Expr)}
    {lo hi : Taken} {ts : List Term}, DraftedLate options args lo ts hi → spareDots ts = true
  | _, _, _, _, .nil => rfl
  | _, _, _, _, .ellipsis _ hrest => spareDots_cons rfl (spareDots_of_draftedLate hrest)
  | _, _, _, _, .literal _ hrest => spareDots_cons rfl (spareDots_of_draftedLate hrest)
  | _, _, _, _, .thunk _ _ _ hrest => spareDots_cons rfl (spareDots_of_draftedLate hrest)

/-! ## Operands -/

namespace Scene

open Action

variable {X : Scene} {o : Operands Term}

lemma ellipsisIndex?_eq_none (h : o.args.any Term.isEllipsis = false) : o.ellipsisIndex? = none :=
  List.findIdx?_eq_none_iff.2 fun t ht => Bool.eq_false_iff.2 (List.any_eq_false.1 h t ht)

/-- A call without `...` keeps none. -/
lemma builtinArguments_spares (h : o.args.any Term.isEllipsis = false)
    {values : Action (List Value)} (hvalues : Spares values) :
    Spares (X.builtinArguments o values) := by
  unfold builtinArguments keepDots spliceDots
  rw [ellipsisIndex?_eq_none h]
  exact (Spares.pure _).bind fun _ => (Spares.pure _).bind fun _ => hvalues.bind fun _ =>
    (Spares.pure _).bind fun _ => .pure _

lemma apply_spares (call : Call) {arguments : Action ArgList}
    {builtin : Action (List (Option Symbol) × List Value)} (harguments : Spares arguments)
    (hbuiltin : Spares builtin) (f : Value) : Spares (X.apply call arguments builtin f) := by
  cases f with
  | builtin b => exact hbuiltin.bind fun _ => .lift _
  | closure unit env => exact harguments.bind fun _ => .lift _
  | special s => exact .lift _
  | _ => exact .lift _

mutual

/-- An operand with no call that passes `...` on leaves the caller's `...` where it is kept. -/
lemma term_spares : ∀ t : Term, t.sparesDots = true → Spares (X.term t)
  | .int _, _ | .literal _, _ | .closure .., _ => .pure _
  | .temp _, _ | .local .., _ => .read _
  | .env _, _ | .thunk _, _ | .ellipsis, _ => .lift _
  | .element vector index, h => by
    rw [Term.sparesDots, Bool.and_eq_true] at h
    exact (term_spares vector h.1).bind fun _ => (term_spares index h.2).bind fun _ =>
      (Spares.lift _).bind fun _ => .lift _
  | .length vector, h =>
    (term_spares vector h).bind fun _ => (Spares.lift _).bind fun _ => .pure _
  | .increment counter, h =>
    (term_spares counter h).bind fun _ => (Spares.lift _).bind fun _ =>
      (Spares.lift _).bind fun _ => .pure _
  | .atLeast left right, h => by
    rw [Term.sparesDots, Bool.and_eq_true] at h
    exact (term_spares left h.1).bind fun _ => (term_spares right h.2).bind fun _ =>
      (Spares.lift _).bind fun _ => .pure _
  | .primitive name ⟨site, args, names⟩, h => by
    rw [Term.sparesDots, Bool.and_eq_true, Bool.not_eq_true'] at h
    refine (builtinArguments_spares h.1 (values_spares args h.2)).bind fun r => ?_
    dsimp only
    cases Builtin.ofName? name.name <;> exact .lift _
  | .call (.name name) ⟨site, args, names⟩, h => by
    rw [Term.sparesDots, Bool.and_eq_true, Bool.not_eq_true'] at h
    exact (Spares.lift _).bind fun f => apply_spares _ (arguments_spares args names h.2)
      (builtinArguments_spares h.1 (values_spares args h.2)) f
  | .call (.computed t) ⟨site, args, names⟩, h => by
    rw [Term.sparesDots, Bool.and_eq_true, Bool.and_eq_true, Bool.not_eq_true'] at h
    exact (term_spares t h.1.1).bind fun _ => (Spares.lift _).bind fun f =>
      apply_spares _ (arguments_spares args names h.2)
        (builtinArguments_spares h.1.2 (values_spares args h.2)) f

lemma arguments_spares : ∀ (ts : List Term) (names : List (Option Symbol)), spareDots ts = true →
    Spares (X.arguments ts names)
  | [], _, _ => .pure _
  | _ :: _, [], _ => .pure _
  | t :: ts, name :: names, h => by
    rw [spareDots, Bool.and_eq_true] at h
    have hrest : ∀ first, Spares (do return first ++ (← X.arguments ts names)) := fun first =>
      (arguments_spares ts names h.2).bind fun _ => .pure _
    cases t with
    | ellipsis => exact (Spares.lift _).bind hrest
    | thunk d => exact (Spares.lift _).bind fun v => hrest [⟨name, v⟩]
    | _ => exact (term_spares _ h.1).bind fun v => hrest [⟨name, v⟩]

lemma values_spares : ∀ ts : List Term, spareDots ts = true → Spares (X.values ts)
  | [], _ => .pure _
  | t :: ts, h => by
    rw [spareDots, Bool.and_eq_true] at h
    have hrest : ∀ v, Spares (do return v :: (← X.values ts)) := fun v =>
      (values_spares ts h.2).bind fun _ => .pure _
    cases t with
    | ellipsis => exact hrest .null
    | _ => exact (term_spares _ h.1).bind hrest

end

/-! ## Names and values -/

/-- A builtin whose arguments pass no `...` on gets names and values from the `...` that is found
first. -/
theorem builtinArguments_eq {position : Nat} (hposition : o.ellipsisIndex? = some position)
    (hargs : spareDots o.args = true) :
    X.builtinArguments o (X.values o.args) = (do
      let dots ← Action.lift (Eval.findDots X.env)
      modify fun F => { F with work := some dots }
      let values ← X.values o.args
      let entries ← Action.lift (dots.mapM fun d => X.host.force d.value)
      return (splicedAt o.names position (dots.map Arg.name),
        splicedAt values position entries)) := by
  funext F s
  unfold builtinArguments keepDots spliceDots
  rw [hposition]
  simp only [Option.isSome_some, if_true, bind_apply, lift_apply, modify_apply]
  cases Eval.findDots X.env s with
  | error e t => rfl
  | ok dots t =>
    have hwork : ∀ u, work { F with work := some dots } u = .ok (dots, _) u := work_apply rfl
    have hpure : ∀ {α : Type} (a : α) u, (pure a : Eval α) u = .ok a u := fun _ _ => rfl
    simp only [hwork, hpure, pure_apply]
    cases hvalues : X.values o.args { F with work := some dots } t with
    | error e u => rfl
    | ok r u =>
      obtain ⟨values, G⟩ := r
      -- The arguments left the place alone, so that the same `...` is still there.
      have hkept : G.work = some dots := values_spares o.args hargs _ _ _ _ _ hvalues
      dsimp only
      rw [work_apply hkept]
      dsimp only
      cases (dots.mapM fun d => X.host.force d.value) u <;> rfl

/-- There is one value for each operand. -/
lemma length_values : ∀ {ts : List Term} {F G : Frame} {s u : Store} {values : List Value},
    X.values ts F s = .ok (values, G) u → values.length = ts.length
  | [], _, _, _, _, _, h => by
    cases h
    rfl
  | t :: ts, F, G, s, u, values, h => by
    have hrest : ∀ {A : Action Value},
        (do let v ← A; return v :: (← X.values ts) : Action (List Value)) F s = .ok (values, G) u →
          values.length = ts.length + 1 := by
      intro A h
      obtain ⟨v, F', s', -, h⟩ := bind_eq_ok h
      obtain ⟨vs, F', s', hvalues, h⟩ := bind_eq_ok h
      cases h
      exact congrArg (· + 1) (length_values hvalues)
    cases t with
    | ellipsis => exact hrest (A := pure .null) h
    | _ => exact hrest h

/-- A builtin whose arguments pass no `...` on gets as many names as values. -/
theorem builtinArguments_lengths (hnames : o.names.length = o.args.length)
    (hargs : spareDots o.args = true) {F G : Frame} {s t : Store} {names : List (Option Symbol)}
    {values : List Value}
    (h : X.builtinArguments o (X.values o.args) F s = .ok ((names, values), G) t) :
    names.length = values.length := by
  cases hposition : o.ellipsisIndex? with
  | none =>
    unfold builtinArguments keepDots spliceDots at h
    rw [hposition] at h
    obtain ⟨_, _, _, -, h⟩ := bind_eq_ok h
    obtain ⟨_, _, _, hown, h⟩ := bind_eq_ok h
    obtain ⟨own, _, _, hvalues, h⟩ := bind_eq_ok h
    obtain ⟨_, _, _, hspliced, h⟩ := bind_eq_ok h
    cases hown
    cases hspliced
    cases h
    exact hnames.trans (length_values hvalues).symm
  | some position =>
    rw [builtinArguments_eq hposition hargs] at h
    obtain ⟨dots, _, _, -, h⟩ := bind_eq_ok h
    obtain ⟨_, _, _, -, h⟩ := bind_eq_ok h
    obtain ⟨own, _, _, hvalues, h⟩ := bind_eq_ok h
    obtain ⟨entries, _, _, hentries, h⟩ := bind_eq_ok h
    cases h
    refine Meaning.length_splicedAt (hnames.trans (length_values hvalues).symm) position ?_
    rw [List.length_map, Eval.length_mapM (lift_eq_ok hentries).1]

end Scene

end CallByNeed.Flow
