import CallByNeed.Proofs.Code.Nameless
import CallByNeed.Proofs.Code.Standing
import CallByNeed.Proofs.Flow.Depth

/-!
# What a body is refused for

A body is refused for how the source is spelt, if `...` stands where it cannot or a builtin is called
that there is not, or because a table or a jump is too large. A body is never refused for its
spelling if all its operands are acceptable and so are the bodies nested in it
(`Compiling.accepts_unitWithin`): nothing else that is done while a unit is assembled looks at the
spelling.
-/

namespace CallByNeed

open CallByNeed.Flow (Term Thunk Procedure Operands)

/-! ## Errors -/

/-- An error that is for how the source is spelt. -/
def CompileError.OfSpelling : CompileError → Prop
  | .misplacedEllipsis | .multipleEllipsis _ | .unknownPrimitive _ => True
  | _ => False

/-- A limit of the compiler is exceeded: by the slots or the constants of a unit, by the arguments of
a call or by the code of a unit. -/
def CompileError.OfSize : CompileError → Prop
  | .tooManySlots .. | .tooManyConstants .. => True
  | .defect (.tooManyArguments _) | .defect (.jumpTargetOutOfRange _) => True
  | _ => False

/-- Source is refused for its spelling or for its size. -/
lemma CompileError.OfSource.spelling_or_size {e : CompileError} (h : e.OfSource) :
    e.OfSpelling ∨ e.OfSize := by
  cases e with
  | defect d =>
    cases d with
    | tooManyArguments call => exact .inr trivial
    | jumpTargetOutOfRange target => exact .inr trivial
    | _ => cases h
  | tooManySlots | tooManyConstants => exact .inr trivial
  | unknownPrimitive | misplacedEllipsis | multipleEllipsis => exact .inl trivial
  | argumentNameMismatch | unboundLabel => cases h

/-- The step never fails for how something is spelt. -/
def Accepts {σ α : Type} (c : EStateM CompileError σ α) : Prop :=
  ∀ s e t, c s = .error e t → ¬ e.OfSpelling

namespace Accepts

variable {σ α β : Type} {c : EStateM CompileError σ α} {f : α → EStateM CompileError σ β}

protected lemma pure (x : α) : Accepts (Pure.pure x : EStateM CompileError σ α) :=
  fun _ _ _ h => nomatch h

protected lemma throw {e : CompileError} (he : ¬ e.OfSpelling) :
    Accepts (MonadExcept.throw e : EStateM CompileError σ α) := by
  intro s e' t h
  cases h
  exact he

protected lemma bind (h : Accepts c) (h' : ∀ x, Accepts (f x)) : Accepts (c >>= f) := by
  intro s e t hrun
  replace hrun : EStateM.bind c f s = .error e t := hrun
  unfold EStateM.bind at hrun
  cases hc : c s with
  | error e' t' =>
    rw [hc] at hrun
    cases hrun
    exact h s e t hc
  | ok x s' =>
    rw [hc] at hrun
    exact h' x s' e t hrun

/-- One step without result after the other. -/
protected lemma seq {c : EStateM CompileError σ Unit} {d : EStateM CompileError σ β}
    (h : Accepts c) (h' : Accepts d) : Accepts (c >>= fun _ => d) := h.bind fun _ => h'

/-- A step that reads the state. -/
protected lemma get {f : σ → EStateM CompileError σ β} (h : ∀ s, Accepts (f s)) :
    Accepts (MonadState.get >>= f) := fun s => h s s

/-- A step that changes the state. -/
protected lemma modifyGet (g : σ → α × σ) : Accepts (modifyGet g : EStateM CompileError σ α) :=
  fun _ _ _ h => nomatch h

protected lemma modify (g : σ → σ) : Accepts (modify g : EStateM CompileError σ PUnit) :=
  .modifyGet _

lemma mapM {g : α → EStateM CompileError σ β} {xs : List α} (h : ∀ x ∈ xs, Accepts (g x)) :
    Accepts (xs.mapM g) := by
  induction xs with
  | nil => exact .pure _
  | cons x xs ih =>
    rw [List.mapM_cons]
    refine (h x List.mem_cons_self).bind fun y => ?_
    exact (ih fun x hx => h x (List.mem_cons_of_mem _ hx)).bind fun ys => .pure _

end Accepts

/-! ## Acceptable operands -/

/-- An argument that a call with late arguments has. -/
def Flow.Term.IsLate : Term → Prop
  | .ellipsis | .literal _ | .thunk _ => True
  | _ => False

/-- An operand that is not refused for its spelling: `...` stands only among the late arguments of a
call, and once at most, and no builtin is called directly. -/
def Flow.Term.Acceptable : Term → Prop
  | .ellipsis | .primitive .. => False
  | .element vector index => vector.Acceptable ∧ index.Acceptable
  | .length t | .increment t => t.Acceptable
  | .atLeast left right => left.Acceptable ∧ right.Acceptable
  | .call (.name _) operands => operands.ellipsisCount ≤ 1 ∧ ∀ t ∈ operands.args, t.IsLate
  | .call (.computed t) operands =>
    t.Acceptable ∧ operands.ellipsisCount ≤ 1 ∧ ∀ t ∈ operands.args, t.IsLate
  | _ => True

/-- What makes units of nested bodies never refuses the body for its spelling, under any name. -/
def Nested.Takes (nested : Nested) (b : Flow.Body) : Prop := ∀ name, Accepts (nested name b)

/-- What makes units of nested bodies takes those of what is met. -/
def Visit.TakenBy (nested : Nested) : Visit → Prop
  | .thunk d => nested.Takes d.body
  | .closure _ p => nested.Takes p.body ∧
    ∀ x ∈ p.formals, ∀ d, x.default = some d → nested.Takes (Flow.Deferred.body d)
  | .site _ => True

namespace Assemble

variable {nested : Nested} {α : Type}

/-! ### Instructions and tables -/

lemma accepts_emit (op : Opcode) (operands : List Nat) : Accepts (emit op operands) := .modify _

lemma accepts_onPool {step : Entering α} (h : Accepts step) : Accepts (onPool step) := by
  intro a e a' hrun
  rw [Assembly.onPool_apply] at hrun
  cases hstep : step.run a.pool with
  | ok x p =>
    rw [show step a.pool = _ from hstep] at hrun
    cases hrun
  | error e' p =>
    rw [show step a.pool = _ from hstep] at hrun
    cases hrun
    exact h _ _ _ hstep

lemma accepts_push (c : Constant) : Accepts (Pool.push c) := by
  intro p e p' h
  unfold Pool.push at h
  split at h
  · cases h
  · cases h
    exact id

lemma accepts_nameIndex (s : Symbol) : Accepts (nameIndex s) := by
  refine accepts_onPool (.get fun p => ?_)
  cases p.names[s.name]? with
  | some i => exact .pure i
  | none => exact (accepts_push _).bind fun i => .seq (.modify _) (.pure i)

lemma accepts_callIndex (c : Flow.CallSite) : Accepts (callIndex c) := by
  refine accepts_onPool (.get fun p => ?_)
  cases p.calls[c.id]? with
  | some i => exact .pure i
  | none => exact (accepts_push _).bind fun i => .seq (.modify _) (.pure i)

lemma accepts_slotFor (key : Flow.SlotKey) (kind : SlotKind) : Accepts (slotFor key kind) := by
  have hallot : Accepts (Slots.allot key kind) := by
    intro s e s' h
    unfold Slots.allot at h
    dsimp only at h
    split at h
    · cases h
    · cases h
      exact id
  have hstep : Accepts (Slots.slotFor key kind) := by
    refine .get fun s => ?_
    cases s.lookup? key with
    | none => exact hallot
    | some slot =>
      dsimp only
      split
      · exact .bind (.throw id) fun _ => .pure _
      · exact .pure slot
  intro a e a' hrun
  rw [slotFor, Assembly.onSlots_apply] at hrun
  cases hslot : Slots.slotFor key kind a.slots with
  | ok x s =>
    rw [hslot] at hrun
    cases hrun
  | error e' s =>
    rw [hslot] at hrun
    cases hrun
    exact hstep _ _ _ hslot

/-! ### Jumps -/

lemma accepts_resolve (l : Flow.Label) : Accepts (resolve l) := .modifyGet _

lemma accepts_freshMark : Accepts freshMark := .modifyGet _

lemma accepts_jump (op : Opcode) (m : Mark) : Accepts (jump op m) :=
  .get fun _ => .seq (accepts_emit _ _) (.modify _)

lemma accepts_place (m : Mark) : Accepts (place m) := by
  refine .get fun a => ?_
  have hbind : ∀ e, a.jumps.bind m a.emitter.position = .error e → ¬ e.OfSpelling := by
    intro e h
    unfold Jumps.bind at h
    split at h
    · cases h
      exact id
    · split at h
      · cases h
        exact id
      · cases h
  cases hj : a.jumps.bind m a.emitter.position with
  | ok j => exact .modifyGet fun _ => ((), { a with jumps := j })
  | error e => exact .throw (hbind e hj)

/-! ### Nested units -/

lemma accepts_functionUnit {node : Flow.NodeId} {p : Procedure Term} {name : String}
    (h : (Visit.closure node p).TakenBy nested) : Accepts (functionUnit nested name p) := by
  refine (Accepts.mapM fun x hx => ?_).bind fun formals => (h.1 name).bind fun u => .pure _
  unfold defaultUnit
  cases hd : x.default with
  | none => exact .pure _
  | some d => exact (h.2 x hx d hd _).bind fun u => .pure _

lemma accepts_journaled {step : EStateM CompileError Journal α} (h : Accepts step) :
    Accepts (journaled step) := by
  intro a e a' hrun
  rw [Assembly.journaled_apply] at hrun
  cases hstep : step a.journal with
  | ok x j =>
    rw [hstep] at hrun
    cases hrun
  | error e' j =>
    rw [hstep] at hrun
    cases hrun
    exact h _ _ _ hstep

lemma accepts_checkRoom (count : Nat) : Accepts (checkRoom count) := by
  unfold checkRoom
  split
  · exact .get fun a => .throw id
  · exact .pure ()

lemma accepts_thunkIndex {d : Thunk} (h : nested.Takes d.body) : Accepts (thunkIndex nested d) := by
  refine .get fun a => ?_
  cases a.thunks.index? d.node with
  | some i => exact .pure i
  | none =>
    exact .seq (accepts_checkRoom _) ((accepts_journaled (h _)).bind fun _ => .modifyGet _)

lemma accepts_closureIndex {node : Flow.NodeId} {p : Procedure Term}
    (h : (Visit.closure node p).TakenBy nested) : Accepts (closureIndex nested node p) := by
  refine .get fun a => ?_
  cases a.closures.index? node with
  | some i => exact .pure i
  | none =>
    exact .seq (accepts_checkRoom _)
      ((accepts_journaled (accepts_functionUnit h)).bind fun _ => .modifyGet _)

/-! ### Words on the stack -/

lemma accepts_boxed {c : Assemble SlotKind} (h : Accepts c) : Accepts (boxed c) := by
  refine h.bind fun kind => ?_
  cases kind with
  | int => exact accepts_emit _ _
  | value => exact .pure ()

lemma accepts_unboxed {c : Assemble SlotKind} (h : Accepts c) : Accepts (unboxed c) := by
  refine h.bind fun kind => ?_
  cases kind with
  | int => exact .pure ()
  | value => exact accepts_emit _ _

lemma accepts_loadSlot (key : Flow.SlotKey) (operand : String) : Accepts (loadSlot key operand) := by
  refine .get fun a => ?_
  cases a.slots.lookup? key with
  | none => exact .throw id
  | some slot =>
    obtain ⟨index, _ | _⟩ := slot
    · exact .seq (accepts_emit _ _) (.pure _)
    · exact .seq (accepts_emit _ _) (.pure _)

lemma accepts_pushLiteral (e : Expr) : Accepts (pushLiteral e) :=
  (accepts_onPool (accepts_push _)).bind fun _ => accepts_emit _ _

lemma accepts_pushCall (c : Flow.CallSite) : Accepts (pushCall c) :=
  (accepts_callIndex c).bind fun _ => accepts_emit _ _

lemma accepts_loadVariable (s : Symbol) : Accepts (loadVariable s) :=
  (accepts_nameIndex s).bind fun _ => .seq (accepts_emit _ _) (accepts_emit _ _)

lemma accepts_evaluateThunk {d : Thunk} (h : ∀ v ∈ Emits.lateVisits d, v.TakenBy nested) :
    Accepts (evaluateThunk nested d) := by
  unfold evaluateThunk
  unfold Emits.lateVisits at h
  cases hd : d.name? with
  | some name => exact accepts_loadVariable name
  | none =>
    rw [hd] at h
    exact (accepts_thunkIndex (h (.thunk d) List.mem_cons_self)).bind fun _ =>
      .seq (accepts_emit _ _) (.seq (accepts_emit _ _) (accepts_emit _ _))

/-! ### Arguments -/

lemma accepts_checkOperands {o : Operands Term} (h : o.ellipsisCount ≤ 1) :
    Accepts (checkOperands o) := by
  unfold checkOperands
  by_cases hnames : o.names.length ≠ o.args.length
  · rw [if_pos hnames]
    exact Accepts.throw (e := .argumentNameMismatch ..) id
  rw [if_neg hnames, if_neg (Nat.not_lt.2 h)]
  split
  · exact Accepts.throw id
  · exact .pure ()

lemma accepts_addArgument (name : Option Symbol) : Accepts (addArgument name) := by
  cases name with
  | none => exact accepts_emit _ _
  | some s => exact (accepts_nameIndex s).bind fun _ => accepts_emit _ _

lemma accepts_nameArguments (names : List (Option Symbol)) (position : Nat) :
    Accepts (nameArguments names position) := by
  induction names generalizing position with
  | nil => exact .pure ()
  | cons name rest ih =>
    cases name with
    | none => exact ih (position + 1)
    | some s =>
      exact (accepts_nameIndex s).bind fun _ => .seq (accepts_emit _ _) (ih (position + 1))

lemma accepts_splice (op : Opcode) (o : Operands Term) : Accepts (splice op o) := by
  unfold splice
  cases o.ellipsisIndex? with
  | none => exact .pure ()
  | some i => exact .seq (accepts_emit _ _) (accepts_emit _ _)

lemma accepts_pushBuiltinFrame (o : Operands Term) : Accepts (pushBuiltinFrame o) := by
  have hstore : Accepts (storeEllipsis o) := by
    unfold storeEllipsis
    split
    · exact .seq (accepts_emit _ _) (accepts_emit _ _)
    · exact .pure ()
  have hnames : Accepts (pushNames o) :=
    .seq (accepts_emit _ _) (.seq (accepts_nameArguments o.names 0) (accepts_splice _ o))
  exact .seq hstore (.seq (accepts_emit _ _) (.seq (accepts_emit _ _)
    (.seq (accepts_pushCall o.site) (.seq hnames (accepts_emit _ _)))))

lemma accepts_dispatch (o : Operands Term) {c v : Assemble Unit} (hc : Accepts c)
    (hv : Accepts v) : Accepts (dispatch o c v) := by
  refine accepts_freshMark.bind fun b => accepts_freshMark.bind fun l =>
    accepts_freshMark.bind fun f => ?_
  refine .seq (accepts_emit _ _) (.seq (accepts_emit _ _) (.seq (accepts_jump _ b)
    (.seq (accepts_emit _ _) (.seq (accepts_emit _ _) (.seq (accepts_jump _ l) ?_)))))
  refine .seq (accepts_emit _ _) (.seq (accepts_emit _ _) (.seq (accepts_pushCall o.site)
    (.seq (accepts_emit _ _) (.seq (accepts_jump _ f) (.seq (accepts_place l) ?_)))))
  refine .seq (accepts_emit _ _) (.seq (accepts_emit _ _) (.seq (accepts_pushCall o.site)
    (.seq (accepts_emit _ _) (.seq hc (.seq (accepts_emit _ _) (.seq (accepts_jump _ f)
      (.seq (accepts_place b) ?_)))))))
  exact .seq (accepts_emit _ _) (.seq (accepts_pushBuiltinFrame o) (.seq hv
    (.seq (accepts_splice _ o) (.seq (accepts_emit _ _) (accepts_place f)))))

/-! ### Operands -/

lemma accepts_closureArguments : ∀ (ts : List Term) (names : List (Option Symbol)),
    (∀ t ∈ ts, t.IsLate) → (∀ v ∈ Term.visitsOf ts, v.TakenBy nested) →
      Accepts (closureArguments nested ts names)
  | [], _, _, _ => by
    unfold closureArguments
    exact .pure ()
  | _ :: _, [], _, _ => by
    unfold closureArguments
    exact .pure ()
  | t :: ts, name :: names, hlate, htaken => by
    have hrest := accepts_closureArguments ts names (fun u hu => hlate u (List.mem_cons_of_mem t hu))
      fun v hv => htaken v (List.mem_append_right _ hv)
    have hadd : Accepts (do addArgument name; closureArguments nested ts names) :=
      .seq (accepts_addArgument name) hrest
    have ht := hlate t List.mem_cons_self
    unfold closureArguments
    cases t with
    | ellipsis => exact .seq (accepts_emit _ _) (.seq (accepts_emit _ _) hrest)
    | literal e => exact .seq (accepts_boxed (.seq (accepts_pushLiteral e) (.pure _))) hadd
    | thunk d =>
      dsimp only
      cases hd : d.name? with
      | some bare =>
        exact (accepts_nameIndex bare).bind fun _ => .seq (accepts_emit _ _)
          (.seq (accepts_emit _ _) hadd)
      | none =>
        have hmet : Visit.thunk d ∈ Term.visitsOf (.thunk d :: ts) := by
          simp [Term.visitsOf, Term.visits, Emits.lateVisits, hd]
        exact (accepts_thunkIndex (htaken _ hmet)).bind fun _ => .seq (accepts_emit _ _)
          (.seq (accepts_emit _ _) (.seq (accepts_emit _ _) hadd))
    | _ => cases ht

lemma accepts_builtinValues : ∀ (ts : List Term) (position : Nat), (∀ t ∈ ts, t.IsLate) →
    (∀ v ∈ Term.visitsOf ts, v.TakenBy nested) → Accepts (builtinValues nested ts position)
  | [], _, _, _ => .pure ()
  | t :: ts, position, hlate, htaken => by
    have hrest := accepts_builtinValues ts (position + 1)
      (fun u hu => hlate u (List.mem_cons_of_mem t hu)) fun v hv => htaken v (List.mem_append_right _ hv)
    have ht := hlate t List.mem_cons_self
    unfold builtinValues
    cases t with
    | ellipsis => exact hrest
    | literal e =>
      exact .seq (accepts_boxed (.seq (accepts_pushLiteral e) (.pure _)))
        (.seq (accepts_emit _ _) hrest)
    | thunk d =>
      exact .seq (accepts_evaluateThunk fun v hv => htaken v (List.mem_append_left _ hv))
        (.seq (accepts_emit _ _) hrest)
    | _ => cases ht

/-- An acceptable operand is not refused for its spelling, if no body in it is. -/
theorem accepts_term : ∀ t : Term, t.Acceptable → (∀ v ∈ t.visits, v.TakenBy nested) →
    Accepts (term nested t)
  | .int n, _, _ => .seq (accepts_emit _ _) (.pure _)
  | .literal e, _, _ => .seq (accepts_pushLiteral e) (.pure _)
  | .temp id, _, _ => accepts_loadSlot (.temp id) _
  | .local id _, _, _ => accepts_loadSlot (.local id) _
  | .env name, _, _ => .seq (accepts_loadVariable name) (.pure _)
  | .element vector index, h, ht =>
    .seq (accepts_boxed (accepts_term vector h.1 fun v hv => ht v (List.mem_append_left _ hv)))
      (.seq (accepts_unboxed (accepts_term index h.2 fun v hv => ht v (List.mem_append_right _ hv)))
        (.seq (accepts_emit _ _) (.pure _)))
  | .length t, h, ht => .seq (accepts_boxed (accepts_term t h ht)) (.seq (accepts_emit _ _) (.pure _))
  | .increment t, h, ht =>
    .seq (accepts_unboxed (accepts_term t h ht)) (.seq (accepts_emit _ _)
      (.seq (accepts_emit _ _) (.pure _)))
  | .atLeast left right, h, ht =>
    .seq (accepts_boxed (accepts_term left h.1 fun v hv => ht v (List.mem_append_left _ hv)))
      (.seq (accepts_boxed (accepts_term right h.2 fun v hv => ht v (List.mem_append_right _ hv)))
        (.seq (accepts_emit _ _) (.pure _)))
  | .closure node p, _, ht =>
    (accepts_closureIndex (ht (.closure node p) List.mem_cons_self)).bind fun _ =>
      .seq (accepts_emit _ _) (.seq (accepts_emit _ _) (.pure _))
  | .thunk d, _, ht => .seq (accepts_evaluateThunk ht) (.pure _)
  | .ellipsis, h, _ => h.elim
  | .primitive .., h, _ => h.elim
  | .call (.name s) ⟨site, args, names⟩, ⟨hcount, hlate⟩, ht => by
    have hargs : ∀ v ∈ Term.visitsOf args, v.TakenBy nested := fun v hv => ht v (by
      simp [Term.visits, hv])
    have hfind : Accepts (findFunction s) := (accepts_nameIndex s).bind fun _ => accepts_emit _ _
    unfold term
    exact .seq (accepts_checkOperands hcount) (.seq hfind (.seq (accepts_dispatch _
      (accepts_closureArguments args names hlate hargs) (accepts_builtinValues args 0 hlate hargs))
        (.pure _)))
  | .call (.computed t) ⟨site, args, names⟩, ⟨hcallee, hcount, hlate⟩, ht => by
    have hargs : ∀ v ∈ Term.visitsOf args, v.TakenBy nested := fun v hv => ht v (by
      simp [Term.visits, hv])
    have hterm := accepts_term t hcallee fun v hv => ht v (List.mem_append_left _ hv)
    have hcheck : Accepts (checkFunction ⟨site, args, names⟩) :=
      (accepts_callIndex site).bind fun _ => accepts_emit _ _
    unfold term
    exact .seq (accepts_checkOperands hcount) (.seq (accepts_boxed hterm) (.seq hcheck
      (.seq (accepts_dispatch _ (accepts_closureArguments args names hlate hargs)
        (accepts_builtinValues args 0 hlate hargs)) (.pure _))))

/-! ### Statements and blocks -/

lemma accepts_assignSlot (key : Flow.SlotKey) {t : Term} (h : Accepts (term nested t)) :
    Accepts (assignSlot nested key t) := by
  refine .get fun a => ?_
  cases counterInPlace? a.options a.slots key t with
  | some slot => exact accepts_emit _ _
  | none =>
    refine (accepts_slotFor _ _).bind fun slot => ?_
    obtain ⟨index, _ | _⟩ := slot
    · exact .seq (accepts_unboxed h) (accepts_emit _ _)
    · exact .seq (accepts_boxed h) (accepts_emit _ _)

lemma accepts_branch {t : Term} (h : Accepts (term nested t)) (yes no : Flow.Label) :
    Accepts (branch nested t yes no) := by
  refine (accepts_resolve yes).bind fun yes => (accepts_resolve no).bind fun no => .get fun a => ?_
  cases nativeComparison? a.options a.slots t with
  | some pair =>
    exact .seq (accepts_emit _ _) (.seq (accepts_emit _ _) (.seq (accepts_jump _ _)
      (accepts_jump _ _)))
  | none =>
    exact .seq (accepts_boxed h) (.seq (accepts_emit _ _) (.seq (accepts_jump _ _)
      (accepts_jump _ _)))

lemma accepts_statement {s : Flow.Statement Term}
    (h : ∀ t, s.operand? = some t → Accepts (term nested t)) : Accepts (statement nested s) := by
  cases s with
  | assign target t =>
    have ht := h t rfl
    cases target with
    | temp id => exact accepts_assignSlot (.temp id) ht
    | «local» id name => exact accepts_assignSlot (.local id) ht
    | env name =>
      exact .seq (accepts_boxed ht) ((accepts_nameIndex name).bind fun _ => accepts_emit _ _)
  | eval t => exact (h t rfl).bind fun _ => accepts_emit _ _
  | goto l => exact (accepts_resolve l).bind fun mark => accepts_jump _ mark
  | branch t yes no => exact accepts_branch (h t rfl) yes no
  | ret t => exact .seq (accepts_boxed (h t rfl)) (accepts_emit _ _)

lemma accepts_blocks {g : Flow.Graph}
    (h : ∀ s ∈ g.flatMap Flow.Block.statements, ∀ t, s.operand? = some t → Accepts (term nested t)) :
    Accepts (blocks nested g) := by
  have hlabels : ∀ ls : List Flow.Label, Accepts (placeLabels ls) := by
    intro ls
    induction ls with
    | nil => exact .pure ()
    | cons l ls ih => exact (accepts_resolve l).bind fun m => .seq (accepts_place m) ih
  have hstatements : ∀ ss : List (Flow.Statement Term),
      (∀ s ∈ ss, ∀ t, s.operand? = some t → Accepts (term nested t)) →
        Accepts (statements nested ss) := by
    intro ss hss
    induction ss with
    | nil => exact .pure ()
    | cons s ss ih =>
      exact .seq (accepts_statement (hss s List.mem_cons_self))
        (ih fun s hs => hss s (List.mem_cons_of_mem _ hs))
  induction g with
  | nil => exact .pure ()
  | cons b g ih =>
    have hb := hstatements b.statements fun s hs => h s (List.mem_append_left _ hs)
    refine .seq (.seq (hlabels b.labels) (.seq hb (.get fun a => ?_)))
      (ih fun s hs => h s (List.mem_append_right _ hs))
    split
    · exact .throw id
    · exact .pure ()

lemma accepts_finish : Accepts finish := by
  refine .get fun a => ?_
  have hpatch : ∀ (pending : List (Nat × Mark)) (code : Bytes) e,
      (a.jumps.patchAll pending code).2 = some (.error e) → ¬ e.OfSpelling := by
    intro pending
    induction pending with
    | nil => exact fun code e h => by cases h
    | cons jump pending ih =>
      intro code e h
      unfold Jumps.patchAll at h
      cases hjump : a.jumps.patch code jump.1 jump.2 with
      | ok code' =>
        rw [hjump] at h
        exact ih code' e h
      | error f =>
        rw [hjump] at h
        obtain rfl := Option.some.inj h
        unfold Jumps.patch at hjump
        repeat' split at hjump
        all_goals
          cases hjump
          try exact id
  cases hcode : a.jumps.apply a.emitter.code with
  | mk code failure =>
    cases failure with
    | none => exact .seq (.modify _) (.pure _)
    | some failure =>
      cases failure with
      | error e => exact .throw (hpatch _ _ e (by rw [← Jumps.apply, hcode]))
      | overrun => exact .throw id

/-! ### Bodies -/

/-- A body is not refused for its spelling if the operands in its graph are not. -/
theorem accepts_body {b : Flow.Body} (h : ∀ s ∈ (Flow.Graph.ofBody b).flatMap Flow.Block.statements,
    ∀ t, s.operand? = some t → Accepts (term nested t)) : Accepts (body nested b) := by
  have hreport : ∀ ss, Accepts (reportUnreachable ss) := by
    intro ss
    induction ss with
    | nil => exact .pure ()
    | cons s ss ih => exact .seq (.modify _) ih
  exact .seq (hreport _) (.seq (.modify _) (.seq (accepts_blocks h) accepts_finish))

end Assemble

/-- **A body is not refused for its spelling** if the operands in its graph are acceptable and the
bodies that they meet are not refused for it. -/
theorem Compiling.accepts_unitWithin {o : CompilerOptions} {depth : Nat} {b : Flow.Body}
    (h : ∀ s ∈ (Flow.Graph.ofBody b).flatMap Flow.Block.statements, ∀ t, s.operand? = some t →
      t.Acceptable ∧ ∀ v ∈ t.visits, v.TakenBy (unitWithin o depth)) :
    Nested.Takes (unitWithin o (depth + 1)) b := by
  intro name j e k hrun
  have hbody : Accepts (Assemble.body (unitWithin o depth) b) :=
    Assemble.accepts_body fun s hs t ht => Assemble.accepts_term t (h s hs t ht).1 (h s hs t ht).2
  unfold unitWithin unitWith at hrun
  cases hassemble : Assemble.body (unitWithin o depth) b (.start name o j) with
  | ok u a =>
    rw [hassemble] at hrun
    cases hrun
  | error e' a =>
    rw [hassemble] at hrun
    cases hrun
    exact hbody _ _ _ hassemble

end CallByNeed
