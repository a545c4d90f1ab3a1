import CallByNeed.Proofs.Comparison.Rules
import CallByNeed.Proofs.Source.Serving
import CallByNeed.Proofs.Source.Units

/-!
# What drafted operands give

An operand that was drafted for an expression gives what the expression means, as far as that is left
to the operand: reading a slot, looking up a variable, making a closure, calling a function. It may
change the store and keep the caller's `...`, but no slot of the frame (`Action.Computes`).
-/

namespace CallByNeed

open CallByNeed.Flow (Term Thunk Procedure NodeId Tables Scene Frame Action Operands Drafted
  DraftedSteps DraftedNow DraftedLate DraftedFormals Taken operandsOf returning)

/-! ## Actions that leave the slots alone -/

namespace Flow

variable {α β : Type} {F G : Frame}

/-- The result of an action is that of an evaluation; the slots are as they were. -/
inductive Yields (F : Frame) : Result (α × Frame) → Result α → Prop
  | ok (a : α) {G : Frame} (h : G.slots = F.slots) (s : Store) : Yields F (.ok (a, G) s) (.ok a s)
  | error (h : Halt) (s : Store) : Yields F (.error h s) (.error h s)

namespace Yields

/-- Both have a value, or both stop. -/
lemma cases {r : Result (α × Frame)} {m : Result α} (h : Yields F r m) :
    (∃ a G t, r = .ok (a, G) t ∧ G.slots = F.slots ∧ m = .ok a t) ∨
      ∃ e t, r = .error e t ∧ m = .error e t := by
  cases h with
  | @ok a G hG t => exact .inl ⟨a, G, t, rfl, hG, rfl⟩
  | error e t => exact .inr ⟨e, t, rfl, rfl⟩

/-- What is done with both results. The action and the evaluation may have begun in different
stores. -/
lemma bind {A : Action α} {M : Eval α} {f : α → Action β} {g : α → Eval β} {s s' : Store}
    (h : Yields F (A F s) (M s'))
    (h' : ∀ a G t, G.slots = F.slots → Yields G (f a G t) (g a t)) :
    Yields F ((A >>= f) F s) ((M >>= g) s') := by
  rw [Action.bind_apply, Eval.bind_apply]
  rcases h.cases with ⟨a, G, t, hA, hG, hM⟩ | ⟨e, t, hA, hM⟩
  · rw [hA, hM]
    dsimp only
    rcases (h' a G t hG).cases with ⟨b, G', u, hf, hG', hg⟩ | ⟨e, u, hf, hg⟩
    · rw [hf, hg]
      exact .ok b (hG'.trans hG) u
    · rw [hf, hg]
      exact .error e u
  · rw [hA, hM]
    exact .error e t

end Yields

namespace Action

lemma pure_apply (a : α) (F : Frame) (s : Store) : (Pure.pure a : Action α) F s = .ok (a, F) s := rfl

lemma modify_apply (f : Frame → Frame) (F : Frame) (s : Store) :
    (modify f : Action PUnit) F s = .ok (⟨⟩, f F) s := rfl

lemma work_apply {dots : ArgList} (h : F.work = some dots) (s : Store) :
    work F s = .ok (dots, F) s := by
  unfold work
  rw [h]
  rfl

lemma lift_pure (a : α) : lift (Pure.pure a) = Pure.pure a := by
  funext F s
  rw [lift_apply]
  rfl

/-- From every frame with these slots, the action computes what the evaluation does. -/
def Computes (F : Frame) (A : Action α) (M : Eval α) : Prop :=
  ∀ G s, G.slots = F.slots → Yields G (A G s) (M s)

lemma Computes.of_eq (h : ∀ G s, G.slots = F.slots → A G s = lift M G s) : Computes F A M := by
  intro G s hG
  rw [h G s hG, lift_apply]
  cases M s with
  | ok a t => exact .ok a rfl t
  | error h t => exact .error h t

lemma Computes.lift (M : Eval α) : Computes F (lift M) M := .of_eq fun _ _ _ => rfl

lemma Computes.pure (a : α) : Computes F (Pure.pure a) (Pure.pure a) := fun _ s _ => .ok a rfl s

lemma Computes.bind {A : Action α} {M : Eval α} {f : α → Action β} {g : α → Eval β}
    (h : Computes F A M) (h' : ∀ a, Computes F (f a) (g a)) : Computes F (A >>= f) (M >>= g) :=
  fun G s hG => (h G s hG).bind fun a G' t hG' => h' a G' t (hG'.trans hG)

end Action

open Action

namespace Scene

variable {X : Scene}

/-- The names and values for a builtin are those that the call gathers, if the values are computed
without touching the frame. -/
lemma computes_builtinArguments {o : Operands Term} {call : Call}
    (hindex : o.ellipsisIndex? = call.ellipsisIndex?) (hnames : o.names = call.args.map Arg.name)
    {values : Action (List Value)} {M : Eval (List Value)}
    (hvalues : ∀ G s, G.slots = F.slots → values G s = lift M G s) :
    Computes F (X.builtinArguments o values) (Meaning.gather X.host X.env call M) := by
  unfold builtinArguments keepDots spliceDots Meaning.gather
  rw [hindex, hnames]
  cases call.ellipsisIndex? with
  | none => exact (Computes.of_eq hvalues).bind fun vs => .pure _
  | some position =>
    intro G s hG
    simp only [Option.isSome_some, if_true, bind_apply, lift_apply, Eval.bind_apply]
    cases Eval.findDots X.env s with
    | error h t => exact .error h t
    | ok dots t =>
      dsimp only
      have hkept := hvalues { G with work := some dots } t hG
      have hwork : ∀ u, work { G with work := some dots } u = .ok (dots, _) u := work_apply rfl
      have hpure : ∀ (names : List (Option Symbol)) u, (Pure.pure names : Eval _) u = .ok names u :=
        fun _ _ => rfl
      simp only [modify_apply, hwork, hpure, pure_apply, hkept, lift_apply]
      cases M t with
      | error h t => exact .error h t
      | ok vs t =>
        simp only [hwork]
        cases (dots.mapM fun d => X.host.force d.value) t with
        | error h t => exact .error h t
        | ok entries t => exact @Yields.ok _ G _ { G with work := some dots } rfl t

/-- A call of a builtin. -/
lemma computes_builtin {call : Call} {A : Action (List (Option Symbol) × List Value)}
    {M : Eval (List (Option Symbol) × List Value)} (h : Computes F A M) (b : Builtin) :
    Computes F (A >>= fun r => lift (ofResult (b.invoke call r.1 r.2)))
      (M >>= fun r => ofResult (b.invoke call r.1 r.2)) :=
  h.bind fun _ => .lift _

/-- A call of a function whose arguments are passed late. -/
lemma computes_apply {call : Call} {passed : List Passed} {arguments : Action ArgList}
    {builtin : Action (List (Option Symbol) × List Value)}
    (harguments : arguments = lift do
      let args ← (call.args.zip passed).mapM fun a => a.2.later X.env a.1.name
      return args.flatten)
    (hbuiltin : Computes F builtin (Meaning.gather X.host X.env call
      (passed.mapM (Passed.now X.limit X.host X.env)))) (f : Value) :
    Computes F (X.apply call arguments builtin f)
      (Meaning.apply X.limit X.host X.env call passed f) := by
  cases f with
  | builtin b => exact computes_builtin hbuiltin b
  | closure unit env =>
    have hargs : Computes F arguments do
        let args ← (call.args.zip passed).mapM fun a => a.2.later X.env a.1.name
        return args.flatten := harguments ▸ .lift _
    have h := hargs.bind fun args => Computes.lift (F := F)
      (applyClosure X.limit X.host unit env call args)
    rwa [bind_assoc] at h
  | special s => exact .lift _
  | _ => exact .lift _

end Scene

/-! ## Late arguments -/

/-- The operand is what an argument is passed as. -/
inductive Term.Stands (T : Tables) : Term → Passed → Prop
  | ellipsis : Stands T .ellipsis .ellipsis
  | literal (e : Expr) : Stands T (.literal e) (.literal e)
  | reading {d : Thunk} {name : Symbol} (h : d.name? = some name) :
    Stands T (.thunk d) (.reading name)
  | unit {d : Thunk} (h : d.name? = none) : Stands T (.thunk d) (.unit (T.thunk d.node))

namespace Scene

variable {X : Scene} {ts : List Term} {passed : List Passed}

/-- The values of late arguments are those of what they are passed as. -/
lemma values_late (h : List.Forall₂ (Term.Stands X.tables) ts passed) :
    X.values ts = lift (passed.mapM (Passed.now X.limit X.host X.env)) := by
  induction h with
  | nil => exact (lift_pure _).symm
  | @cons t p ts ps ht _ ih =>
    rw [List.mapM_cons]
    simp only [lift_bind, lift_pure, ← ih]
    cases ht with
    | ellipsis => simp only [values, Passed.now, lift_pure, pure_bind]
    | literal e => simp only [values, term, Passed.now, lift_pure, pure_bind]
    | reading hname => simp only [values, term, late, hname, Passed.now]
    | unit hname => simp only [values, term, late, hname, Passed.now]

/-- The arguments for a closure are what they are passed as. -/
lemma arguments_late (h : List.Forall₂ (Term.Stands X.tables) ts passed) (args : List (Arg Expr)) :
    X.arguments ts (args.map Arg.name) = lift do
      let args ← (args.zip passed).mapM fun a => a.2.later X.env a.1.name
      return args.flatten := by
  induction h generalizing args with
  | nil => cases args <;> exact (lift_pure _).symm
  | @cons t p ts ps ht _ ih =>
    cases args with
    | nil =>
      rw [List.map_nil, arguments]
      · exact (lift_pure _).symm
      · exact nofun
    | cons a args =>
      rw [List.map_cons, List.zip_cons_cons, List.mapM_cons]
      simp only [bind_assoc, pure_bind, List.flatten_cons]
      simp only [lift_bind, lift_pure]
      have hrest := ih args
      simp only [lift_bind, lift_pure] at hrest
      cases ht with
      | ellipsis => simp only [arguments, Passed.later, hrest, bind_assoc, pure_bind]
      | literal e =>
        simp only [arguments, term, Passed.later, lift_pure, hrest, bind_assoc, pure_bind]
      | reading hname =>
        simp only [arguments, promised, hname, Passed.later, lift_bind, lift_pure, hrest,
          bind_assoc, pure_bind]
      | unit hname =>
        simp only [arguments, promised, hname, Passed.later, lift_bind, lift_pure, hrest,
          bind_assoc, pure_bind]

end Scene

/-! ## What late arguments are passed as -/

variable {o : CompilerOptions} {T : Tables}

/-- A place of `...` among the operands is one among the arguments. -/
abbrev Marked (a : Arg Expr) (t : Term) : Prop := t.isEllipsis = a.value.isEllipsis

lemma Marked.index {args : List (Arg Expr)} {ts : List Term} (h : List.Forall₂ Marked args ts) :
    ts.findIdx? Term.isEllipsis = args.findIdx? fun a => a.value.isEllipsis := by
  induction h with
  | nil => rfl
  | cons h _ ih => rw [List.findIdx?_cons, List.findIdx?_cons, ih, h]

lemma Marked.count {args : List (Arg Expr)} {ts : List Term} (h : List.Forall₂ Marked args ts) :
    ts.countP Term.isEllipsis = args.countP fun a => a.value.isEllipsis := by
  induction h with
  | nil => rfl
  | cons h _ ih => rw [List.countP_cons, List.countP_cons, ih, h]

lemma isEllipsis_of_isConstant {e : Expr} (h : e.isConstant = true) : e.isEllipsis = false := by
  cases e <;> first | rfl | cases h

/-- The operands of late arguments are what these are passed as. -/
lemma passes_of_draftedLate {args : List (Arg Expr)} {lo hi : Taken} {ts : List Term} :
    DraftedLate o args lo ts hi → (∀ v ∈ Term.visitsOf ts, Fits o T v) →
      ∃ passed, List.Forall₂ (Passes o) (args.map Arg.value) passed ∧
        List.Forall₂ (Term.Stands T) ts passed ∧ List.Forall₂ Marked args ts
  | .nil, _ => ⟨[], .nil, .nil, .nil⟩
  | .ellipsis ha hrest, hfits => by
    obtain ⟨passed, hpasses, hstands, hmarked⟩ := passes_of_draftedLate hrest hfits
    exact ⟨_, .cons (.ellipsis ha) hpasses, .cons .ellipsis hstands, .cons ha.symm hmarked⟩
  | .literal ha hrest, hfits => by
    obtain ⟨passed, hpasses, hstands, hmarked⟩ := passes_of_draftedLate hrest hfits
    exact ⟨_, .cons (.literal ha) hpasses, .cons (.literal _) hstands,
      .cons (isEllipsis_of_isConstant ha).symm hmarked⟩
  | @DraftedLate.thunk _ a _ _ _ _ _ _ _ hellipsis hconstant h hrest, hfits => by
    obtain ⟨passed, hpasses, hstands, hmarked⟩ := passes_of_draftedLate hrest fun v hv =>
      hfits v (List.mem_append_right _ hv)
    cases hname : a.value.symbol? with
    | some name =>
      obtain ⟨_, value⟩ := a
      cases value with
      | symbol s =>
        cases hname
        exact ⟨_, .cons (.reading hellipsis) hpasses, .cons (.reading rfl) hstands,
          .cons hellipsis.symm hmarked⟩
      | _ => cases hname
    | none =>
      have hunit := hfits (.thunk _) (List.mem_append_left _ (by
        rw [Term.visits, Emits.lateVisits, Deferred.name?, hname]
        exact List.mem_singleton.2 rfl))
      exact ⟨_, .cons (.unit hconstant hname ⟨_, ⟨_, _, _, _, h, rfl⟩, hunit⟩) hpasses,
        .cons (.unit hname) hstands, .cons hellipsis.symm hmarked⟩

/-- The function unit of a literal was compiled from it. -/
lemma compiled_of_drafted {f : Function} {lo mid hi : Taken} {formals : List (Formal Thunk)}
    {t : Term} {b : Body} {node : NodeId} {name : Option Symbol}
    (hformals : DraftedFormals o f.formals lo formals mid) (hbody : Drafted o f.body mid t b hi)
    (hfits : Fits o T (.closure node ⟨name, formals, returning b t⟩)) :
    CompiledLiteral o f (T.closure node) :=
  DraftedLiteral.compiledLiteral (p := ⟨name, formals, returning b t⟩)
    ⟨sourced_of_draftedFormals hformals, _, _, _, _, hbody, rfl⟩ hfits.1 hfits.2

end Flow
end CallByNeed
