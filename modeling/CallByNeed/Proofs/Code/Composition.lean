import CallByNeed.Proofs.Code.Unit

/-!
# Properties of all steps

A property of steps that holds of the basic ones and passes on to steps made of these
(`Assemble.StepClosed`) holds of laying out a whole graph (`Assemble.StepClosed.blocks`). So what is
claimed of the tables or the slots of every unit needs a proof for the steps that change them only.
-/

namespace CallByNeed

open CallByNeed.Flow (Term Thunk Procedure NodeId Operands SlotKey Graph)

/-- The error is that a value is assigned to a slot for integers. -/
def CompileError.Reboxes : CompileError → Prop
  | .defect (.slotReboxed ..) => True
  | _ => False

/-- What is known of tables, slots and options is the same. -/
structure Assembly.Spares (a b : Assembly) : Prop where
  unit : b.unit = a.unit
  options : b.options = a.options
  pool : b.pool = a.pool
  slots : b.slots = a.slots
  thunks : b.thunks = a.thunks
  closures : b.closures = a.closures

lemma Assembly.Spares.refl (a : Assembly) : a.Spares a := ⟨rfl, rfl, rfl, rfl, rfl, rfl⟩

namespace Jumps

variable {j j' : Jumps} {e : CompileError}

lemma not_reboxes_bind {m : Mark} {position : Nat} (h : j.bind m position = .error e) :
    ¬ e.Reboxes := by
  unfold Jumps.bind at h
  repeat' split at h
  all_goals
    cases h
    try exact id

lemma not_reboxes_patchAll {pending : List (Nat × Mark)} {code : Bytes}
    (h : (j.patchAll pending code).2 = some (.error e)) : ¬ e.Reboxes := by
  induction pending generalizing code with
  | nil => cases h
  | cons jump pending ih =>
    unfold patchAll at h
    cases hjump : j.patch code jump.1 jump.2 with
    | ok code' =>
      rw [hjump] at h
      exact ih h
    | error f =>
      rw [hjump] at h
      obtain rfl := Option.some.inj h
      unfold patch at hjump
      repeat' split at hjump
      all_goals
        cases hjump
        try exact id

end Jumps

namespace Assemble

/-- The property holds of steps that spare tables, slots and options, whether they fail or not, of
those that enter constants and nested units, and of asking for slots as `planned`; and it passes on
to steps made of such ones. -/
structure StepClosed (nested : Nested) (options : CompilerOptions)
    (planned : SlotKey → SlotKind → Prop) (P : ∀ ⦃α : Type⦄, Assemble α → Prop) : Prop where
  spares : ∀ {α : Type} {c : Assemble α}, (∀ a, match c a with
    | .ok _ b => a.Spares b
    | .error e b => a.Spares b ∧ ¬ e.Reboxes) → P c
  bind : ∀ {α β : Type} {c : Assemble α} {f : α → Assemble β}, P c → (∀ x, P (f x)) → P (c >>= f)
  /-- What is done may depend on the state. The options are given once and for all. -/
  get : ∀ {β : Type} {f : Assembly → Assemble β}, (∀ a, a.options = options → P (f a)) →
    P (MonadState.get >>= f)
  literal : ∀ e, P (onPool (Pool.literal e))
  name : ∀ s, P (nameIndex s)
  primitive : ∀ s, P (primitiveIndex s)
  call : ∀ c, P (callIndex c)
  slot : ∀ {key kind}, planned key kind → P (slotFor key kind)
  thunk : ∀ d, P (thunkIndex nested d)
  closure : ∀ node p, P (closureIndex nested node p)

namespace StepClosed

variable {nested : Nested} {options : CompilerOptions} {planned : SlotKey → SlotKind → Prop}
  {P : ∀ ⦃α : Type⦄, Assemble α → Prop} (h : StepClosed nested options planned P) {α β : Type}

include h

/-! ## Simple steps -/

protected lemma pure (x : α) : P (Pure.pure x : Assemble α) := h.spares fun a => .refl a

protected lemma throw {e : CompileError} (he : ¬ e.Reboxes) :
    P (MonadExcept.throw e : Assemble α) := h.spares fun a => ⟨.refl a, he⟩

/-- One step without result after the other. -/
protected lemma seq {c : Assemble Unit} {d : Assemble β} (hc : P c) (hd : P d) :
    P (c >>= fun _ => d) := h.bind hc fun _ => hd

/-- A step that comes behind a check. -/
lemma guard {p : Prop} [Decidable p] {e : CompileError} {d : PUnit → Assemble β}
    (he : ¬ e.Reboxes) (hd : ∀ x, P (d x)) :
    P (if p then MonadExcept.throw e >>= d else d ⟨⟩) := by
  split
  · exact h.bind (h.throw he) hd
  · exact hd _

/-- A step that changes something else than tables, slots and options. -/
protected lemma modifyGet {g : Assembly → α × Assembly} (hg : ∀ a : Assembly, a.Spares (g a).2) :
    P (modifyGet g : Assemble α) := h.spares hg

protected lemma modify {g : Assembly → Assembly} (hg : ∀ a : Assembly, a.Spares (g a)) :
    P (modify g : Assemble PUnit) := h.spares hg

/-! ## Instructions and jumps -/

protected lemma emit (op : Opcode) (operands : List Nat) : P (emit op operands) :=
  h.modify fun _ => ⟨rfl, rfl, rfl, rfl, rfl, rfl⟩

protected lemma resolve (l : Flow.Label) : P (resolve l) :=
  h.modifyGet fun _ => ⟨rfl, rfl, rfl, rfl, rfl, rfl⟩

protected lemma freshMark : P freshMark := h.modifyGet fun _ => ⟨rfl, rfl, rfl, rfl, rfl, rfl⟩

protected lemma jump (op : Opcode) (m : Mark) : P (jump op m) :=
  h.get fun _ _ => h.seq (h.emit _ _) (h.modify fun _ => ⟨rfl, rfl, rfl, rfl, rfl, rfl⟩)

protected lemma place (m : Mark) : P (place m) := by
  refine h.spares fun a => ?_
  rw [Assemble.place, get_bind_apply]
  cases hj : a.jumps.bind m a.emitter.position with
  | ok j => exact ⟨rfl, rfl, rfl, rfl, rfl, rfl⟩
  | error e => exact ⟨.refl a, Jumps.not_reboxes_bind hj⟩

/-! ## Words on the stack -/

protected lemma boxed {c : Assemble SlotKind} (hc : P c) : P (boxed c) := by
  refine h.bind hc fun kind => ?_
  cases kind with
  | int => exact h.emit _ _
  | value => exact h.pure ()

protected lemma unboxed {c : Assemble SlotKind} (hc : P c) : P (unboxed c) := by
  refine h.bind hc fun kind => ?_
  cases kind with
  | int => exact h.pure ()
  | value => exact h.emit _ _

protected lemma loadSlot (key : SlotKey) (operand : String) : P (loadSlot key operand) := by
  refine h.get fun a _ => ?_
  cases a.slots.lookup? key with
  | none => exact h.throw id
  | some slot =>
    obtain ⟨index, _ | _⟩ := slot
    · exact h.seq (h.emit _ _) (h.pure _)
    · exact h.seq (h.emit _ _) (h.pure _)

protected lemma pushLiteral (e : Expr) : P (pushLiteral e) :=
  h.bind (h.literal e) fun _ => h.emit _ _

protected lemma pushCall (c : Flow.CallSite) : P (pushCall c) :=
  h.bind (h.call c) fun _ => h.emit _ _

protected lemma loadVariable (s : Symbol) : P (loadVariable s) :=
  h.bind (h.name s) fun _ => h.seq (h.emit _ _) (h.emit _ _)

protected lemma evaluateThunk (d : Thunk) : P (evaluateThunk nested d) := by
  unfold Assemble.evaluateThunk
  cases d.name? with
  | some name => exact h.loadVariable name
  | none =>
    exact h.bind (h.thunk d) fun _ => h.seq (h.emit _ _) (h.seq (h.emit _ _) (h.emit _ _))

/-! ## Arguments -/

protected lemma checkOperands (o : Operands Term) : P (checkOperands o) := by
  unfold Assemble.checkOperands
  refine h.guard id fun _ => h.guard id fun _ => ?_
  split
  · exact h.throw id
  · exact h.pure ()

protected lemma addArgument (name : Option Symbol) : P (addArgument name) := by
  cases name with
  | none => exact h.emit _ _
  | some s => exact h.bind (h.name s) fun _ => h.emit _ _

protected lemma nameArguments (names : List (Option Symbol)) (position : Nat) :
    P (nameArguments names position) := by
  induction names generalizing position with
  | nil => exact h.pure ()
  | cons name rest ih =>
    cases name with
    | none => exact ih (position + 1)
    | some s => exact h.bind (h.name s) fun _ => h.seq (h.emit _ _) (ih (position + 1))

protected lemma splice (op : Opcode) (o : Operands Term) : P (splice op o) := by
  unfold Assemble.splice
  cases o.ellipsisIndex? with
  | none => exact h.pure ()
  | some i => exact h.seq (h.emit _ _) (h.emit _ _)

protected lemma storeEllipsis (o : Operands Term) : P (storeEllipsis o) := by
  unfold Assemble.storeEllipsis
  split
  · exact h.seq (h.emit _ _) (h.emit _ _)
  · exact h.pure ()

protected lemma pushBuiltinFrame (o : Operands Term) : P (pushBuiltinFrame o) := by
  have hnames : P (pushNames o) :=
    h.seq (h.emit _ _) (h.seq (h.nameArguments o.names 0) (h.splice _ o))
  exact h.seq (h.storeEllipsis o) (h.seq (h.emit _ _) (h.seq (h.emit _ _)
    (h.seq (h.pushCall o.site) (h.seq hnames (h.emit _ _)))))

protected lemma dispatch (o : Operands Term) {c v : Assemble Unit} (hc : P c) (hv : P v) :
    P (dispatch o c v) := by
  refine h.bind h.freshMark fun b => h.bind h.freshMark fun l => h.bind h.freshMark fun f => ?_
  refine h.seq (h.emit _ _) (h.seq (h.emit _ _) (h.seq (h.jump _ b)
    (h.seq (h.emit _ _) (h.seq (h.emit _ _) (h.seq (h.jump _ l) ?_)))))
  refine h.seq (h.emit _ _) (h.seq (h.emit _ _) (h.seq (h.pushCall o.site)
    (h.seq (h.emit _ _) (h.seq (h.jump _ f) (h.seq (h.place l) ?_)))))
  refine h.seq (h.emit _ _) (h.seq (h.emit _ _) (h.seq (h.pushCall o.site)
    (h.seq (h.emit _ _) (h.seq hc (h.seq (h.emit _ _) (h.seq (h.jump _ f)
      (h.seq (h.place b) ?_)))))))
  exact h.seq (h.emit _ _) (h.seq (h.pushBuiltinFrame o) (h.seq hv
    (h.seq (h.splice _ o) (h.seq (h.emit _ _) (h.place f)))))

/-! ## Operands -/

mutual

/-- The property holds of evaluating operands. -/
protected theorem term : ∀ t : Term, P (term nested t)
  | .int n => h.seq (h.emit _ _) (h.pure _)
  | .literal e => h.seq (h.pushLiteral e) (h.pure _)
  | .temp id => h.loadSlot (.temp id) _
  | .local id _ => h.loadSlot (.local id) _
  | .env name => h.seq (h.loadVariable name) (h.pure _)
  | .element vector index =>
    h.seq (h.boxed (StepClosed.term vector)) (h.seq (h.unboxed (StepClosed.term index))
      (h.seq (h.emit _ _) (h.pure _)))
  | .length t => h.seq (h.boxed (StepClosed.term t)) (h.seq (h.emit _ _) (h.pure _))
  | .increment t =>
    h.seq (h.unboxed (StepClosed.term t)) (h.seq (h.emit _ _) (h.seq (h.emit _ _) (h.pure _)))
  | .atLeast left right =>
    h.seq (h.boxed (StepClosed.term left)) (h.seq (h.boxed (StepClosed.term right))
      (h.seq (h.emit _ _) (h.pure _)))
  | .closure node p =>
    h.bind (h.closure node p) fun _ => h.seq (h.emit _ _) (h.seq (h.emit _ _) (h.pure _))
  | .thunk d => h.seq (h.evaluateThunk d) (h.pure _)
  | .ellipsis => h.throw id
  | .primitive name ⟨site, args, names⟩ => by
    unfold Assemble.term
    exact h.seq (h.checkOperands _) (h.guard id fun _ =>
      h.bind (h.primitive name) fun _ => h.seq (h.pushBuiltinFrame _)
        (h.seq (StepClosed.builtinValues args 0) (h.seq (h.splice _ _)
          (h.seq (h.emit _ _) (h.pure _)))))
  | .call (.name s) ⟨site, args, names⟩ => by
    unfold Assemble.term
    have hfind : P (findFunction s) := h.bind (h.name s) fun _ => h.emit _ _
    exact h.seq (h.checkOperands _) (h.seq hfind (h.seq (h.dispatch _
      (StepClosed.closureArguments args names) (StepClosed.builtinValues args 0)) (h.pure _)))
  | .call (.computed t) ⟨site, args, names⟩ => by
    unfold Assemble.term
    have hcheck : P (checkFunction ⟨site, args, names⟩) :=
      h.bind (h.call site) fun _ => h.emit _ _
    exact h.seq (h.checkOperands _) (h.seq (h.boxed (StepClosed.term t)) (h.seq hcheck
      (h.seq (h.dispatch _ (StepClosed.closureArguments args names)
        (StepClosed.builtinValues args 0)) (h.pure _))))

/-- The property holds of passing arguments to closures. -/
protected theorem closureArguments : ∀ (ts : List Term)
    (names : List (Option Symbol)), P (closureArguments nested ts names)
  | [], _ => by
    unfold Assemble.closureArguments
    exact h.pure ()
  | _ :: _, [] => by
    unfold Assemble.closureArguments
    exact h.pure ()
  | t :: ts, name :: names => by
    have hrest := StepClosed.closureArguments ts names
    have hadd : P (do addArgument name; closureArguments nested ts names) :=
      h.seq (h.addArgument name) hrest
    have ht : P (term nested t) := StepClosed.term t
    unfold Assemble.closureArguments
    cases t with
    | ellipsis => exact h.seq (h.emit _ _) (h.seq (h.emit _ _) hrest)
    | thunk d =>
      dsimp only
      cases d.name? with
      | some bare =>
        exact h.bind (h.name bare) fun _ => h.seq (h.emit _ _) (h.seq (h.emit _ _) hadd)
      | none =>
        exact h.bind (h.thunk d) fun _ => h.seq (h.emit _ _)
          (h.seq (h.emit _ _) (h.seq (h.emit _ _) hadd))
    | _ => exact h.seq (h.boxed ht) hadd

/-- The property holds of evaluating the arguments of builtins. -/
protected theorem builtinValues : ∀ (ts : List Term) (position : Nat),
    P (builtinValues nested ts position)
  | [], _ => h.pure ()
  | t :: ts, position => by
    have hrest := StepClosed.builtinValues ts (position + 1)
    have ht : P (term nested t) := StepClosed.term t
    unfold Assemble.builtinValues
    cases t with
    | ellipsis => exact hrest
    | thunk d => exact h.seq (h.evaluateThunk d) (h.seq (h.emit _ _) hrest)
    | _ => exact h.seq (h.boxed ht) (h.seq (h.emit _ _) hrest)

end

/-! ## Statements and blocks -/

/-- What a statement assigns to a slot is planned. -/
def Plans (options : CompilerOptions) (planned : SlotKey → SlotKind → Prop) :
    Flow.Statement Term → Prop
  | .assign target value => ∀ key, target.slotKey? = some key → planned key (kindOf options value)
  | _ => True

protected lemma assignSlot {key : SlotKey} {t : Term} (hkind : planned key (kindOf options t)) :
    P (assignSlot nested key t) := by
  refine h.get fun a ha => ?_
  rw [ha]
  cases counterInPlace? options a.slots key t with
  | some slot => exact h.emit _ _
  | none =>
    refine h.bind (h.slot hkind) fun slot => ?_
    obtain ⟨index, _ | _⟩ := slot
    · exact h.seq (h.unboxed (h.term t)) (h.emit _ _)
    · exact h.seq (h.boxed (h.term t)) (h.emit _ _)

protected lemma branch (t : Term) (yes no : Flow.Label) : P (branch nested t yes no) := by
  refine h.bind (h.resolve yes) fun yes => h.bind (h.resolve no) fun no => h.get fun a _ => ?_
  cases nativeComparison? a.options a.slots t with
  | some pair =>
    exact h.seq (h.emit _ _) (h.seq (h.emit _ _) (h.seq (h.jump _ _) (h.jump _ _)))
  | none =>
    exact h.seq (h.boxed (h.term t)) (h.seq (h.emit _ _) (h.seq (h.jump _ _) (h.jump _ _)))

protected lemma statement {s : Flow.Statement Term} (hs : Plans options planned s) :
    P (statement nested s) := by
  cases s with
  | assign target t =>
    cases target with
    | temp id => exact h.assignSlot (hs _ rfl)
    | «local» id name => exact h.assignSlot (hs _ rfl)
    | env name =>
      exact h.seq (h.boxed (h.term t)) (h.bind (h.name name) fun _ => h.emit _ _)
  | eval t => exact h.bind (h.term t) fun _ => h.emit _ _
  | goto l => exact h.bind (h.resolve l) fun mark => h.jump _ mark
  | branch t yes no => exact h.branch t yes no
  | ret t => exact h.seq (h.boxed (h.term t)) (h.emit _ _)

protected lemma placeLabels (ls : List Flow.Label) : P (placeLabels ls) := by
  induction ls with
  | nil => exact h.pure ()
  | cons l ls ih => exact h.bind (h.resolve l) fun m => h.seq (h.place m) ih

protected lemma statements (ss : List (Flow.Statement Term))
    (hss : ∀ s ∈ ss, Plans options planned s) : P (statements nested ss) := by
  induction ss with
  | nil => exact h.pure ()
  | cons s ss ih =>
    exact h.seq (h.statement (hss s List.mem_cons_self))
      (ih fun s hs => hss s (List.mem_cons_of_mem _ hs))

/-- The property holds of laying out a graph whose assignments are planned. -/
protected theorem blocks {g : Graph}
    (hg : ∀ s ∈ g.flatMap Flow.Block.statements, Plans options planned s) :
    P (blocks nested g) := by
  induction g with
  | nil => exact h.pure ()
  | cons b g ih =>
    have hb := h.statements b.statements fun s hs => hg s (List.mem_append_left _ hs)
    refine h.seq (h.seq (h.placeLabels b.labels) (h.seq hb (h.get fun a _ => ?_)))
      (ih fun s hs => hg s (List.mem_append_right _ hs))
    split
    · exact h.throw id
    · exact h.pure ()

protected lemma finish : P finish := by
  refine h.get fun a _ => ?_
  cases hcode : a.jumps.apply a.emitter.code with
  | mk code failure =>
    cases failure with
    | none => exact h.seq (h.modify fun _ => ⟨rfl, rfl, rfl, rfl, rfl, rfl⟩) (h.pure _)
    | some failure =>
      cases failure with
      | error e => exact h.throw (Jumps.not_reboxes_patchAll (by rw [← Jumps.apply, hcode]))
      | overrun => exact h.throw id

end StepClosed

end Assemble

end CallByNeed
