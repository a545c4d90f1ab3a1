import CallByNeed.Proofs.Code.Unit

/-!
# Units under other names

Units have names for reports and errors only. A body that can be compiled can be compiled under any
name, whatever has been reported before (`Compiling.unitWithin_succeeds`): no step of assembling sees
the names of the unit, of its tables and of the units nested in it, but for the text of an error.
-/

namespace CallByNeed

open CallByNeed.Flow (Term Thunk Procedure Operands)

/-! ## Steps that do not see a difference -/

/-- A step that succeeds in a state succeeds with the same result in all states that are related to
it. -/
def Indifferent {σ α : Type} (R : σ → σ → Prop) (c : EStateM CompileError σ α) : Prop :=
  ∀ s s', R s s' → ∀ x t, c s = .ok x t → ∃ t', c s' = .ok x t' ∧ R t t'

namespace Indifferent

variable {σ α β : Type} {R : σ → σ → Prop} {c : EStateM CompileError σ α}
  {f : α → EStateM CompileError σ β}

protected lemma pure (x : α) : Indifferent R (Pure.pure x : EStateM CompileError σ α) := by
  intro s s' hs y t h
  cases h
  exact ⟨s', rfl, hs⟩

protected lemma throw (e : CompileError) :
    Indifferent R (MonadExcept.throw e : EStateM CompileError σ α) :=
  fun _ _ _ _ _ h => nomatch h

lemma bind_eq_ok {y : β} {s t : σ} :
    (c >>= f) s = .ok y t ↔ ∃ x u, c s = .ok x u ∧ f x u = .ok y t := by
  show EStateM.bind c f s = _ ↔ _
  unfold EStateM.bind
  cases c s <;> simp

protected lemma bind (h : Indifferent R c) (h' : ∀ x, Indifferent R (f x)) :
    Indifferent R (c >>= f) := by
  intro s s' hs y t hrun
  obtain ⟨x, u, hc, hf⟩ := bind_eq_ok.1 hrun
  obtain ⟨u', hu', hR⟩ := h s s' hs x u hc
  obtain ⟨t', ht', hR'⟩ := h' x u u' hR y t hf
  exact ⟨t', bind_eq_ok.2 ⟨x, u', hu', ht'⟩, hR'⟩

/-- One step without result after the other. -/
protected lemma seq {c : EStateM CompileError σ Unit} {d : EStateM CompileError σ β}
    (h : Indifferent R c) (h' : Indifferent R d) : Indifferent R (c >>= fun _ => d) :=
  h.bind fun _ => h'

/-- A step that reads of the state what does not differ. -/
protected lemma get {f : σ → EStateM CompileError σ β} (hf : ∀ s s', R s s' → f s' = f s)
    (h : ∀ s, Indifferent R (f s)) : Indifferent R (MonadState.get >>= f) := by
  intro s s' hs x t hrun
  obtain ⟨t', ht', hR⟩ := h s s s' hs x t hrun
  refine ⟨t', ?_, hR⟩
  show f s' s' = _
  rw [hf s s' hs]
  exact ht'

/-- A step that changes the state. -/
protected lemma modifyGet {g : σ → α × σ}
    (h : ∀ s s', R s s' → (g s').1 = (g s).1 ∧ R (g s).2 (g s').2) :
    Indifferent R (modifyGet g : EStateM CompileError σ α) := by
  intro s s' hs x t hrun
  cases hrun
  obtain ⟨hresult, hR⟩ := h s s' hs
  exact ⟨(g s').2, congrArg (EStateM.Result.ok · (g s').2) hresult, hR⟩

protected lemma modify {g : σ → σ} (h : ∀ s s', R s s' → R (g s) (g s')) :
    Indifferent R (modify g : EStateM CompileError σ PUnit) :=
  .modifyGet fun s s' hs => ⟨rfl, h s s' hs⟩

end Indifferent

/-! ## Tables -/

/-- The same constants, entered for a unit of another name. -/
def Pool.Kin (p p' : Pool) : Prop := ∃ unit, p' = { p with unit }

/-- The same slots, handed out for a unit of another name. -/
def Slots.Kin (s s' : Slots) : Prop := ∃ unit, s' = { s with unit }

/-- As many units for the same bodies. -/
structure Registry.Kin {υ : Type} (r r' : Registry υ) : Prop where
  indexes : r'.indexes = r.indexes
  size : r'.size = r.size

lemma Registry.Kin.insert {υ : Type} {r r' : Registry υ} (h : r.Kin r') (node : Flow.NodeId)
    (u u' : υ) : (r'.insert node u').1 = (r.insert node u).1 ∧
      (r.insert node u).2.Kin (r'.insert node u').2 := by
  refine ⟨h.size, ?_, ?_⟩
  · show r'.indexes.insert node.id r'.size = r.indexes.insert node.id r.size
    rw [h.indexes, h.size]
  · show (r'.units.push u').size = (r.units.push u).size
    rw [Array.size_push, Array.size_push]
    exact congrArg Nat.succ h.size

namespace Pool

lemma indifferent_push (c : Constant) : Indifferent Kin (push c) := by
  rintro p _ ⟨unit, rfl⟩ i q h
  unfold push at h ⊢
  split at h
  · rename_i hroom
    cases h
    exact ⟨_, if_pos hroom, unit, rfl⟩
  · cases h

lemma indifferent_name (s : Symbol) : Indifferent Kin (name s) := by
  refine .get (by rintro p _ ⟨unit, rfl⟩; rfl) fun p => ?_
  cases p.names[s.name]? with
  | some i => exact .pure i
  | none =>
    refine (indifferent_push (.name s)).bind fun i => .seq (.modify ?_) (.pure i)
    rintro p _ ⟨unit, rfl⟩
    exact ⟨unit, rfl⟩

lemma indifferent_primitive (s : Symbol) : Indifferent Kin (primitive s) := by
  refine .get (by rintro p _ ⟨unit, rfl⟩; rfl) fun p => ?_
  cases p.primitives[s.name]? with
  | some i => exact .pure i
  | none =>
    refine (indifferent_push (.primitive s)).bind fun i => .seq (.modify ?_) (.pure i)
    rintro p _ ⟨unit, rfl⟩
    exact ⟨unit, rfl⟩

lemma indifferent_call (c : Flow.CallSite) : Indifferent Kin (call c) := by
  refine .get (by rintro p _ ⟨unit, rfl⟩; rfl) fun p => ?_
  cases p.calls[c.id]? with
  | some i => exact .pure i
  | none =>
    refine (indifferent_push (.call c.call)).bind fun i => .seq (.modify ?_) (.pure i)
    rintro p _ ⟨unit, rfl⟩
    exact ⟨unit, rfl⟩

end Pool

namespace Slots

lemma indifferent_allot (key : Flow.SlotKey) (kind : SlotKind) :
    Indifferent Kin (allot key kind) := by
  rintro s _ ⟨unit, rfl⟩ slot t h
  unfold allot at h ⊢
  dsimp only at h
  split at h
  · rename_i hroom
    cases h
    exact ⟨_, if_pos hroom, unit, rfl⟩
  · cases h

lemma indifferent_slotFor (key : Flow.SlotKey) (kind : SlotKind) :
    Indifferent Kin (slotFor key kind) := by
  intro s s' hs slot t h
  have hlookup : s'.lookup? key = s.lookup? key := by
    obtain ⟨unit, rfl⟩ := hs
    rfl
  rw [slotFor_apply] at h ⊢
  rw [hlookup]
  revert h
  cases s.lookup? key with
  | none => exact indifferent_allot key kind s s' hs slot t
  | some k =>
    dsimp only
    split
    · exact fun h => nomatch h
    · exact Indifferent.pure k s s' hs slot t

end Slots

/-! ## Assemblies -/

/-- The same code, assembled under other names. -/
structure Assembly.Kin (a a' : Assembly) : Prop where
  options : a'.options = a.options
  emitter : a'.emitter = a.emitter
  pool : a.pool.Kin a'.pool
  slots : a.slots.Kin a'.slots
  jumps : a'.jumps = a.jumps
  thunks : a.thunks.Kin a'.thunks
  closures : a.closures.Kin a'.closures

/-- A step of assembling that does not see names. -/
abbrev Assemble.Nameless {α : Type} (c : Assemble α) : Prop := Indifferent Assembly.Kin c

/-- A step of compiling that succeeds, whatever has been reported before. -/
def Compiling.Succeeds {α : Type} (c : Compiling α) : Prop := ∀ j, ∃ x k, c j = .ok x k

/-- What makes units of nested bodies sees no names either: a body that can be compiled can be
compiled under any name, whatever has been reported before. -/
def Nested.Nameless (nested : Nested) : Prop :=
  ∀ b name j u k, nested name b j = .ok u k → ∀ name', Compiling.Succeeds (nested name' b)

namespace Compiling.Succeeds

variable {α β : Type} {c : Compiling α} {f : α → Compiling β}

protected lemma pure (x : α) : Succeeds (Pure.pure x) := fun j => ⟨x, j, rfl⟩

protected lemma bind (h : Succeeds c) (h' : ∀ x, Succeeds (f x)) : Succeeds (c >>= f) := by
  intro j
  obtain ⟨x, k, hx⟩ := h j
  rw [Assemble.nested_bind_apply, hx]
  exact h' x k

lemma mapM {g : α → Compiling β} {xs : List α} (h : ∀ x ∈ xs, Succeeds (g x)) :
    Succeeds (xs.mapM g) := by
  induction xs with
  | nil => exact .pure _
  | cons x xs ih =>
    rw [List.mapM_cons]
    refine (h x List.mem_cons_self).bind fun y => ?_
    exact (ih fun x hx => h x (List.mem_cons_of_mem _ hx)).bind fun ys => .pure _

end Compiling.Succeeds

open Compiling (Succeeds)

namespace Assemble

variable {nested : Nested} {α : Type}

/-! ### Instructions and tables -/

lemma nameless_emit (op : Opcode) (operands : List Nat) : Nameless (emit op operands) := by
  refine .modify fun a a' h => { h with emitter := ?_ }
  exact congrArg (Emitter.append · ⟨op, operands⟩) h.emitter

lemma nameless_onPool {step : Entering α} (h : Indifferent Pool.Kin step) :
    Nameless (onPool step) := by
  intro a a' ha x b hrun
  obtain ⟨p, hp, rfl⟩ := Assembly.onPool_eq_ok hrun
  obtain ⟨p', hp', hkin⟩ := h _ _ ha.pool x p hp
  refine ⟨{ a' with pool := p' }, ?_, { ha with pool := hkin }⟩
  rw [Assembly.onPool_apply, hp']

lemma nameless_slotFor (key : Flow.SlotKey) (kind : SlotKind) : Nameless (slotFor key kind) := by
  intro a a' ha x b hrun
  obtain ⟨s, hs, rfl⟩ := Assembly.onSlots_eq_ok hrun
  obtain ⟨s', hs', hkin⟩ := Slots.indifferent_slotFor key kind _ _ ha.slots x s hs
  refine ⟨{ a' with slots := s' }, ?_, { ha with slots := hkin }⟩
  rw [slotFor, Assembly.onSlots_apply, hs']

lemma nameless_nameIndex (s : Symbol) : Nameless (nameIndex s) :=
  nameless_onPool (Pool.indifferent_name s)

lemma nameless_callIndex (c : Flow.CallSite) : Nameless (callIndex c) :=
  nameless_onPool (Pool.indifferent_call c)

/-! ### Jumps -/

lemma nameless_resolve (l : Flow.Label) : Nameless (resolve l) := by
  refine .modifyGet fun a a' h => ?_
  dsimp only
  rw [h.jumps]
  exact ⟨rfl, { h with jumps := rfl }⟩

lemma nameless_freshMark : Nameless freshMark := by
  refine .modifyGet fun a a' h => ?_
  dsimp only
  rw [h.jumps]
  exact ⟨rfl, { h with jumps := rfl }⟩

lemma nameless_jump (op : Opcode) (m : Mark) : Nameless (jump op m) := by
  refine .get (fun a a' h => ?_) fun a => .seq (nameless_emit _ _) (.modify fun b b' h => ?_)
  · rw [h.emitter]
  · exact { h with jumps := congrArg (Jumps.record · a.emitter.position m) h.jumps }

lemma nameless_place (m : Mark) : Nameless (place m) := by
  intro a a' ha x b hrun
  obtain ⟨j, hj, rfl⟩ := Assembly.place_eq_ok hrun
  have hj' : a'.jumps.bind m a'.emitter.position = .ok j := by
    rw [ha.jumps, ha.emitter]
    exact hj
  refine ⟨{ a' with jumps := j }, ?_, { ha with jumps := rfl }⟩
  rw [place, get_bind_apply, hj']
  rfl

/-! ### Nested units -/

/-- A function literal can be compiled if its defaults and its body can be. -/
lemma succeeds_functionUnit {p : Procedure Term} {name : String}
    (hdefaults : ∀ x ∈ p.formals, ∀ d, x.default = some d →
      ∀ name, Succeeds (nested name d.body))
    (hbody : Succeeds (nested name p.body)) : Succeeds (functionUnit nested name p) := by
  refine (Succeeds.mapM fun x hx => ?_).bind fun formals => hbody.bind fun u => .pure _
  unfold defaultUnit
  cases hd : x.default with
  | none => exact .pure _
  | some d => exact (hdefaults x hx d hd _).bind fun u => .pure _

/-- So it can be compiled under another name if it can be compiled. -/
lemma succeeds_functionUnit_of_ok (hn : nested.Nameless) {p : Procedure Term} {u : FunctionUnit}
    {name : String} {j k : Journal} (h : functionUnit nested name p j = .ok u k) (name' : String) :
    Succeeds (functionUnit nested name' p) := by
  obtain ⟨-, hformals, j₁, k₁, hbody⟩ := madeFunction_of_eq_ok h
  refine succeeds_functionUnit (fun x hx d hd name => ?_) (hn _ _ _ _ _ hbody name')
  obtain ⟨i, hi, rfl⟩ := List.getElem_of_mem hx
  have hdefault := (hformals.get hi (hformals.length_eq ▸ hi)).default
  rw [List.get_eq_getElem, hd] at hdefault
  generalize (u.formals.get _).default = y at hdefault
  cases hdefault with
  | some hmade =>
    obtain ⟨j₂, k₂, hmade⟩ := hmade
    exact hn _ _ _ _ _ hmade name

/-- A unit is compiled when its body is first met. -/
lemma nameless_number {υ : Type} {index : Assembly → Option Nat} {count : Assembly → Nat}
    {unit : Assembly → EStateM CompileError Journal υ} {insert : υ → Assembly → Nat × Assembly}
    (hindex : ∀ a a', a.Kin a' → index a' = index a) (hcount : ∀ a a', a.Kin a' → count a' = count a)
    (hunit : ∀ a j u k, unit a j = .ok u k → ∀ a' j', ∃ u' k', unit a' j' = .ok u' k')
    (hinsert : ∀ u u' a a', a.Kin a' →
      (insert u' a').1 = (insert u a).1 ∧ (insert u a).2.Kin (insert u' a').2) :
    Nameless (do
      let a ← get
      match index a with
      | some i => return i
      | none =>
        checkRoom (count a)
        let u ← journaled (unit a)
        modifyGet (insert u)) := by
  intro a a' ha x b hrun
  rw [get_bind_apply] at hrun ⊢
  rw [hindex a a' ha, hcount a a' ha]
  cases hi : index a with
  | some i =>
    rw [hi] at hrun
    exact Indifferent.pure i a a' ha x b hrun
  | none =>
    rw [hi] at hrun
    dsimp only at hrun ⊢
    rw [bind_apply] at hrun ⊢
    cases hroom : checkRoom (count a) a with
    | error e c =>
      rw [hroom] at hrun
      cases hrun
    | ok _ c =>
      obtain ⟨hlt, rfl⟩ := Assembly.checkRoom_eq_ok hroom
      have hroom' : checkRoom (count c) a' = .ok () a' := by
        rw [checkRoom, if_neg (Nat.not_le_of_lt hlt)]
        rfl
      rw [hroom] at hrun
      rw [hroom']
      dsimp only at hrun ⊢
      rw [bind_apply] at hrun ⊢
      cases hu : journaled (unit c) c with
      | error e d =>
        rw [hu] at hrun
        cases hrun
      | ok u d =>
        obtain ⟨j, hj, rfl⟩ := Assembly.journaled_eq_ok hu
        obtain ⟨u', j', hu'⟩ := hunit _ _ _ _ hj a' a'.journal
        rw [hu] at hrun
        rw [Assembly.journaled_apply, hu']
        cases hrun
        obtain ⟨hresult, hkin⟩ := hinsert u u' { c with journal := j } { a' with journal := j' }
          { ha with }
        exact ⟨_, congrArg (EStateM.Result.ok · _) hresult, hkin⟩

lemma nameless_thunkIndex (hn : nested.Nameless) (d : Thunk) : Nameless (thunkIndex nested d) := by
  refine nameless_number (υ := CodeUnit) (fun a a' h => ?_) (fun a a' h => h.thunks.size)
    (fun _ _ _ _ h _ => hn _ _ _ _ _ h _) fun u u' a a' h => ?_
  · unfold Registry.index?
    rw [h.thunks.indexes]
  · obtain ⟨hresult, hkin⟩ := h.thunks.insert d.node u u'
    exact ⟨hresult, { h with thunks := hkin }⟩

lemma nameless_closureIndex (hn : nested.Nameless) (node : Flow.NodeId) (p : Procedure Term) :
    Nameless (closureIndex nested node p) := by
  refine nameless_number (υ := FunctionUnit) (fun a a' h => ?_) (fun a a' h => h.closures.size)
    (fun _ _ _ _ h _ j' => succeeds_functionUnit_of_ok hn h _ j') fun u u' a a' h => ?_
  · unfold Registry.index?
    rw [h.closures.indexes]
  · obtain ⟨hresult, hkin⟩ := h.closures.insert node u u'
    exact ⟨hresult, { h with closures := hkin }⟩

/-! ### Words on the stack -/

lemma nameless_boxed {c : Assemble SlotKind} (h : Nameless c) : Nameless (boxed c) := by
  refine h.bind fun kind => ?_
  cases kind with
  | int => exact nameless_emit _ _
  | value => exact .pure ()

lemma nameless_unboxed {c : Assemble SlotKind} (h : Nameless c) : Nameless (unboxed c) := by
  refine h.bind fun kind => ?_
  cases kind with
  | int => exact .pure ()
  | value => exact nameless_emit _ _

lemma lookup?_kin {s s' : Slots} (h : s.Kin s') (key : Flow.SlotKey) :
    s'.lookup? key = s.lookup? key := by
  obtain ⟨unit, rfl⟩ := h
  rfl

lemma nameless_loadSlot (key : Flow.SlotKey) (operand : String) :
    Nameless (loadSlot key operand) := by
  refine .get (fun a a' h => by rw [lookup?_kin h.slots]) fun a => ?_
  cases a.slots.lookup? key with
  | none => exact .throw _
  | some slot =>
    obtain ⟨index, _ | _⟩ := slot
    · exact .seq (nameless_emit _ _) (.pure _)
    · exact .seq (nameless_emit _ _) (.pure _)

lemma nameless_pushLiteral (e : Expr) : Nameless (pushLiteral e) :=
  (nameless_onPool (Pool.indifferent_push (.literal e))).bind fun _ => nameless_emit _ _

lemma nameless_pushCall (c : Flow.CallSite) : Nameless (pushCall c) :=
  (nameless_callIndex c).bind fun _ => nameless_emit _ _

lemma nameless_loadVariable (s : Symbol) : Nameless (loadVariable s) :=
  (nameless_nameIndex s).bind fun _ => .seq (nameless_emit _ _) (nameless_emit _ _)

lemma nameless_evaluateThunk (hn : nested.Nameless) (d : Thunk) :
    Nameless (evaluateThunk nested d) := by
  unfold evaluateThunk
  cases d.name? with
  | some name => exact nameless_loadVariable name
  | none =>
    exact (nameless_thunkIndex hn d).bind fun _ => .seq (nameless_emit _ _)
      (.seq (nameless_emit _ _) (nameless_emit _ _))

/-! ### Arguments -/

lemma nameless_checkOperands (o : Operands Term) : Nameless (checkOperands o) := by
  unfold checkOperands
  by_cases hnames : o.names.length ≠ o.args.length
  · rw [if_pos hnames]
    exact Indifferent.throw (.argumentNameMismatch ..)
  by_cases hmany : o.ellipsisCount > 1
  · rw [if_neg hnames, if_pos hmany]
    exact Indifferent.throw (.multipleEllipsis _)
  by_cases hmax : o.args.length ≥ maxConstants
  · rw [if_neg hnames, if_neg hmany, if_pos hmax]
    exact Indifferent.throw (.defect _)
  · rw [if_neg hnames, if_neg hmany, if_neg hmax]
    exact .pure ()

lemma nameless_addArgument (name : Option Symbol) : Nameless (addArgument name) := by
  cases name with
  | none => exact nameless_emit _ _
  | some s => exact (nameless_nameIndex s).bind fun _ => nameless_emit _ _

lemma nameless_storeEllipsis (o : Operands Term) : Nameless (storeEllipsis o) := by
  unfold storeEllipsis
  split
  · exact .seq (nameless_emit _ _) (nameless_emit _ _)
  · exact .pure ()

lemma nameless_nameArguments (names : List (Option Symbol)) (position : Nat) :
    Nameless (nameArguments names position) := by
  induction names generalizing position with
  | nil => exact .pure ()
  | cons name rest ih =>
    cases name with
    | none => exact ih (position + 1)
    | some s =>
      exact (nameless_nameIndex s).bind fun _ => .seq (nameless_emit _ _) (ih (position + 1))

lemma nameless_splice (op : Opcode) (o : Operands Term) : Nameless (splice op o) := by
  unfold splice
  cases o.ellipsisIndex? with
  | none => exact .pure ()
  | some i => exact .seq (nameless_emit _ _) (nameless_emit _ _)

lemma nameless_pushBuiltinFrame (o : Operands Term) : Nameless (pushBuiltinFrame o) := by
  have hnames : Nameless (pushNames o) :=
    .seq (nameless_emit _ _) (.seq (nameless_nameArguments o.names 0) (nameless_splice _ o))
  exact .seq (nameless_storeEllipsis o) (.seq (nameless_emit _ _) (.seq (nameless_emit _ _)
    (.seq (nameless_pushCall o.site) (.seq hnames (nameless_emit _ _)))))

lemma nameless_dispatch (o : Operands Term) {c v : Assemble Unit} (hc : Nameless c)
    (hv : Nameless v) : Nameless (dispatch o c v) := by
  refine nameless_freshMark.bind fun b => nameless_freshMark.bind fun l =>
    nameless_freshMark.bind fun f => ?_
  refine .seq (nameless_emit _ _) (.seq (nameless_emit _ _) (.seq (nameless_jump _ b)
    (.seq (nameless_emit _ _) (.seq (nameless_emit _ _) (.seq (nameless_jump _ l) ?_)))))
  refine .seq (nameless_emit _ _) (.seq (nameless_emit _ _) (.seq (nameless_pushCall o.site)
    (.seq (nameless_emit _ _) (.seq (nameless_jump _ f) (.seq (nameless_place l) ?_)))))
  refine .seq (nameless_emit _ _) (.seq (nameless_emit _ _) (.seq (nameless_pushCall o.site)
    (.seq (nameless_emit _ _) (.seq hc (.seq (nameless_emit _ _) (.seq (nameless_jump _ f)
      (.seq (nameless_place b) ?_)))))))
  exact .seq (nameless_emit _ _) (.seq (nameless_pushBuiltinFrame o) (.seq hv
    (.seq (nameless_splice _ o) (.seq (nameless_emit _ _) (nameless_place f)))))

/-! ### Operands -/

/-! ### Planning and finishing -/

/-- The same slots are planned for a unit of another name. -/
lemma planSlots_unit (o : CompilerOptions) (s : Slots) (unit : String) (g : Flow.Graph) :
    planSlots o { s with unit } g = { planSlots o s g with unit } := by
  have hplan : ∀ (s : Slots) key kind,
      Slots.plan { s with unit } key kind = { s.plan key kind with unit } := by
    intro s key kind
    cases kind with
    | int => rfl
    | value =>
      unfold Slots.plan
      dsimp only
      split <;> rfl
  refine List.foldl_hom (fun s : Slots => { s with unit }) fun s b => ?_
  refine List.foldl_hom (fun s : Slots => { s with unit }) fun s st => ?_
  unfold planStatement
  cases st with
  | assign target t =>
    dsimp only
    cases target.slotKey? with
    | none => rfl
    | some key => exact hplan s key _
  | _ => rfl

/-- A unit can be finished under another name. -/
lemma exists_finish_of_kin {a a' z : Assembly} {u : CodeUnit} (ha : a.Kin a')
    (h : finish a = .ok u z) : ∃ u' z', finish a' = .ok u' z' := by
  unfold finish at h ⊢
  rw [get_bind_apply] at h ⊢
  rw [ha.jumps, ha.emitter]
  cases hj : a.jumps.apply a.emitter.code with
  | mk code failure =>
    rw [hj] at h
    cases failure with
    | none => exact ⟨_, _, rfl⟩
    | some failure => cases failure <;> cases h

section

variable (hn : nested.Nameless)
include hn

mutual

/-- The code of an operand. -/
theorem nameless_term : ∀ t : Term, Nameless (term nested t)
  | .int n => .seq (nameless_emit _ _) (.pure _)
  | .literal e => .seq (nameless_pushLiteral e) (.pure _)
  | .temp id => nameless_loadSlot (.temp id) _
  | .local id _ => nameless_loadSlot (.local id) _
  | .env name => .seq (nameless_loadVariable name) (.pure _)
  | .element vector index =>
    .seq (nameless_boxed (nameless_term vector)) (.seq (nameless_unboxed (nameless_term index))
      (.seq (nameless_emit _ _) (.pure _)))
  | .length t => .seq (nameless_boxed (nameless_term t)) (.seq (nameless_emit _ _) (.pure _))
  | .increment t =>
    .seq (nameless_unboxed (nameless_term t)) (.seq (nameless_emit _ _)
      (.seq (nameless_emit _ _) (.pure _)))
  | .atLeast left right =>
    .seq (nameless_boxed (nameless_term left)) (.seq (nameless_boxed (nameless_term right))
      (.seq (nameless_emit _ _) (.pure _)))
  | .closure node p =>
    (nameless_closureIndex hn node p).bind fun _ => .seq (nameless_emit _ _)
      (.seq (nameless_emit _ _) (.pure _))
  | .thunk d => .seq (nameless_evaluateThunk hn d) (.pure _)
  | .ellipsis => .throw _
  | .primitive name ⟨site, args, names⟩ => by
    have hvalues := nameless_builtinValues args 0
    unfold term
    refine .seq (nameless_checkOperands _) ?_
    by_cases hb : (Builtin.ofName? name.name).isNone
    · rw [if_pos hb]
      exact Indifferent.throw (.unknownPrimitive _)
    · rw [if_neg hb]
      exact (nameless_onPool (Pool.indifferent_primitive name)).bind fun _ =>
        .seq (nameless_pushBuiltinFrame _) (.seq hvalues (.seq (nameless_splice _ _)
          (.seq (nameless_emit _ _) (.pure _))))
  | .call callee ⟨site, args, names⟩ => by
    have hdispatch := nameless_dispatch ⟨site, args, names⟩ (nameless_closureArguments args names)
      (nameless_builtinValues args 0)
    unfold term
    refine .seq (nameless_checkOperands _) ?_
    cases callee with
    | name s =>
      have hfind : Nameless (findFunction s) :=
        (nameless_nameIndex s).bind fun _ => nameless_emit _ _
      exact .seq hfind (.seq hdispatch (.pure _))
    | computed t =>
      have hcheck : Nameless (checkFunction ⟨site, args, names⟩) :=
        (nameless_callIndex site).bind fun _ => nameless_emit _ _
      exact .seq (nameless_boxed (nameless_term t)) (.seq hcheck (.seq hdispatch (.pure _)))

theorem nameless_closureArguments : ∀ (ts : List Term) (names : List (Option Symbol)),
    Nameless (closureArguments nested ts names)
  | [], _ => by
    unfold closureArguments
    exact .pure ()
  | _ :: _, [] => by
    unfold closureArguments
    exact .pure ()
  | t :: ts, name :: names => by
    have hrest := nameless_closureArguments ts names
    have hadd : Nameless (do addArgument name; closureArguments nested ts names) :=
      .seq (nameless_addArgument name) hrest
    have ht := nameless_boxed (nameless_term t)
    unfold closureArguments
    cases t with
    | ellipsis => exact .seq (nameless_emit _ _) (.seq (nameless_emit _ _) hrest)
    | thunk d =>
      dsimp only
      cases d.name? with
      | some bare =>
        exact (nameless_nameIndex bare).bind fun _ => .seq (nameless_emit _ _)
          (.seq (nameless_emit _ _) hadd)
      | none =>
        exact (nameless_thunkIndex hn d).bind fun _ => .seq (nameless_emit _ _)
          (.seq (nameless_emit _ _) (.seq (nameless_emit _ _) hadd))
    | _ => exact .seq ht hadd

theorem nameless_builtinValues : ∀ (ts : List Term) (position : Nat),
    Nameless (builtinValues nested ts position)
  | [], _ => .pure ()
  | t :: ts, position => by
    have hrest := nameless_builtinValues ts (position + 1)
    have ht := nameless_boxed (nameless_term t)
    unfold builtinValues
    cases t with
    | ellipsis => exact hrest
    | thunk d => exact .seq (nameless_evaluateThunk hn d) (.seq (nameless_emit _ _) hrest)
    | _ => exact .seq ht (.seq (nameless_emit _ _) hrest)

end

/-! ### Statements -/

lemma nameless_assignSlot (key : Flow.SlotKey) (t : Term) : Nameless (assignSlot nested key t) := by
  refine .get (fun a a' h => ?_) fun a => ?_
  · obtain ⟨unit, hslots⟩ := h.slots
    rw [h.options, hslots]
    rfl
  · cases counterInPlace? a.options a.slots key t with
    | some slot => exact nameless_emit _ _
    | none =>
      refine (nameless_slotFor _ _).bind fun slot => ?_
      obtain ⟨index, _ | _⟩ := slot
      · exact .seq (nameless_unboxed (nameless_term hn t)) (nameless_emit _ _)
      · exact .seq (nameless_boxed (nameless_term hn t)) (nameless_emit _ _)

lemma nameless_branch (t : Term) (yes no : Flow.Label) : Nameless (branch nested t yes no) := by
  refine (nameless_resolve yes).bind fun yes => (nameless_resolve no).bind fun no => ?_
  refine .get (fun a a' h => ?_) fun a => ?_
  · obtain ⟨unit, hslots⟩ := h.slots
    rw [h.options, hslots]
    rfl
  · cases nativeComparison? a.options a.slots t with
    | some pair =>
      exact .seq (nameless_emit _ _) (.seq (nameless_emit _ _)
        (.seq (nameless_jump _ _) (nameless_jump _ _)))
    | none =>
      exact .seq (nameless_boxed (nameless_term hn t)) (.seq (nameless_emit _ _)
        (.seq (nameless_jump _ _) (nameless_jump _ _)))

lemma nameless_statement (s : Flow.Statement Term) : Nameless (statement nested s) := by
  cases s with
  | assign target t =>
    cases target with
    | temp id => exact nameless_assignSlot hn (.temp id) t
    | «local» id name => exact nameless_assignSlot hn (.local id) t
    | env name =>
      exact .seq (nameless_boxed (nameless_term hn t)) ((nameless_nameIndex name).bind fun _ =>
        nameless_emit _ _)
  | eval t => exact (nameless_term hn t).bind fun _ => nameless_emit _ _
  | goto l => exact (nameless_resolve l).bind fun mark => nameless_jump _ mark
  | branch t yes no => exact nameless_branch hn t yes no
  | ret t => exact .seq (nameless_boxed (nameless_term hn t)) (nameless_emit _ _)

lemma nameless_statements (ss : List (Flow.Statement Term)) : Nameless (statements nested ss) := by
  induction ss with
  | nil => exact .pure ()
  | cons s ss ih => exact .seq (nameless_statement hn s) ih

/-! ### Blocks -/

lemma nameless_block (b : Flow.Block) : Nameless (block nested b) := by
  have hlabels : ∀ ls : List Flow.Label, Nameless (placeLabels ls) := by
    intro ls
    induction ls with
    | nil => exact .pure ()
    | cons l ls ih => exact (nameless_resolve l).bind fun m => .seq (nameless_place m) ih
  refine .seq (hlabels b.labels) (.seq (nameless_statements hn b.statements) ?_)
  intro a a' h x c hrun
  rw [get_bind_apply] at hrun ⊢
  rw [h.emitter]
  cases hend : a.emitter.endsInTransfer with
  | false =>
    rw [hend] at hrun
    cases hrun
  | true =>
    rw [hend] at hrun
    exact Indifferent.pure _ a a' h x c hrun

lemma nameless_blocks (g : Flow.Graph) : Nameless (blocks nested g) := by
  induction g with
  | nil => exact .pure ()
  | cons b g ih => exact .seq (nameless_block hn b) ih

/-! ### Bodies -/

/-- A body can be assembled under other names. -/
theorem exists_body_of_kin {b : Flow.Body} {a a' z : Assembly} {u : CodeUnit} (ha : a.Kin a')
    (h : body nested b a = .ok u z) : ∃ u' z', body nested b a' = .ok u' z' := by
  have hreport : ∀ ss, Nameless (reportUnreachable ss) := by
    intro ss
    induction ss with
    | nil => exact .pure ()
    | cons s ss ih => exact .seq (.modify fun a a' h => { h with }) ih
  have hplan : Nameless (modify fun a : Assembly =>
      { a with slots := planSlots a.options a.slots (Flow.Graph.ofBody b) }) := by
    refine .modify fun a a' h => { h with slots := ?_ }
    obtain ⟨unit, hslots⟩ := h.slots
    rw [h.options, hslots]
    exact ⟨unit, planSlots_unit a.options a.slots unit _⟩
  obtain ⟨_, a₁, h₁, h⟩ := Indifferent.bind_eq_ok.1 h
  obtain ⟨a₁', h₁', ha₁⟩ := hreport _ a a' ha _ a₁ h₁
  obtain ⟨_, a₂, h₂, h⟩ := Indifferent.bind_eq_ok.1 h
  obtain ⟨a₂', h₂', ha₂⟩ := hplan a₁ a₁' ha₁ _ a₂ h₂
  obtain ⟨_, a₃, h₃, h⟩ := Indifferent.bind_eq_ok.1 h
  obtain ⟨a₃', h₃', ha₃⟩ := nameless_blocks hn _ a₂ a₂' ha₂ _ a₃ h₃
  obtain ⟨u', z', hfinish⟩ := exists_finish_of_kin ha₃ h
  exact ⟨u', z', Indifferent.bind_eq_ok.2 ⟨_, a₁', h₁', Indifferent.bind_eq_ok.2 ⟨_, a₂', h₂',
    Indifferent.bind_eq_ok.2 ⟨_, a₃', h₃', hfinish⟩⟩⟩⟩

end

end Assemble

namespace Compiling

variable {o : CompilerOptions} {depth : Nat}

/-- **Units see no names.** -/
theorem nameless_unitWithin (o : CompilerOptions) (depth : Nat) :
    Nested.Nameless (unitWithin o depth) := by
  induction depth with
  | zero => exact fun _ _ _ _ _ _ _ => .pure _
  | succ depth ih =>
    intro b name j u k h name' j'
    have hstart : (Assembly.start name o j).Kin (.start name' o j') :=
      { options := rfl, emitter := rfl, pool := ⟨name', rfl⟩, slots := ⟨name', rfl⟩
        jumps := rfl, thunks := ⟨rfl, rfl⟩, closures := ⟨rfl, rfl⟩ }
    unfold unitWithin unitWith at h ⊢
    cases hrun : Assemble.body (unitWithin o depth) b (.start name o j) with
    | error e z =>
      rw [hrun] at h
      cases h
    | ok u₁ z =>
      obtain ⟨u', z', hrun'⟩ := Assemble.exists_body_of_kin ih hstart hrun
      rw [hrun']
      exact ⟨u', z'.journal, rfl⟩

end Compiling

end CallByNeed
