import CallByNeed.Proofs.Code.Twins

/-!
# Operands under other identities

The code of an operand is the same under all identities, and it is refused for reasons of source
only: the slots that it reads were assigned before, the names of its arguments run beside these, and
the units of what is nested in it do not depend on identities either (`Keeps.term`).
-/

namespace CallByNeed

open CallByNeed.Flow (Term Thunk Procedure NodeId CallSite Operands Label SlotKey IdSource Body)

namespace Ground

variable {G : Ground} {w : Standing} {nested nested' : Nested}

/-! ## Words on the stack -/

lemma Keeps.boxed {c c' : Assemble SlotKind} (h : G.Keeps w c c') :
    G.Keeps w (Assemble.boxed c) (Assemble.boxed c') := by
  refine h.bind fun kind => ?_
  cases kind with
  | int => exact Keeps.emit _ _
  | value => exact Keeps.pure ()

lemma Keeps.unboxed {c c' : Assemble SlotKind} (h : G.Keeps w c c') :
    G.Keeps w (Assemble.unboxed c) (Assemble.unboxed c') := by
  refine h.bind fun kind => ?_
  cases kind with
  | int => exact Keeps.pure ()
  | value => exact Keeps.emit _ _

lemma Keeps.pushCall (c : CallSite) :
    G.Keeps w (Assemble.pushCall c) (Assemble.pushCall (c.rename G.ids)) :=
  (Keeps.callIndex c).bind fun _ => Keeps.emit _ _

lemma Keeps.loadVariable (s : Symbol) :
    G.Keeps w (Assemble.loadVariable s) (Assemble.loadVariable s) :=
  (Keeps.nameIndex s).bind fun _ => (Keeps.emit _ _).seq (Keeps.emit _ _)

lemma Keeps.pushLiteral (e : Expr) :
    G.Keeps w (Assemble.pushLiteral e) (Assemble.pushLiteral e) :=
  (Keeps.onPool (Pool.twins_push (.literal e))).bind fun _ => Keeps.emit _ _

/-- Evaluating a late argument now. -/
lemma Keeps.evaluateThunk {d : Thunk}
    (h : ∀ v ∈ Emits.lateVisits d, v.Coincides G.ids nested nested') :
    G.Keeps w (Assemble.evaluateThunk nested d)
      (Assemble.evaluateThunk nested' (d.rename G.ids)) := by
  have hname : (d.rename G.ids).name? = d.name? := rfl
  unfold Assemble.evaluateThunk
  rw [hname]
  unfold Emits.lateVisits at h
  cases hd : d.name? with
  | some name => exact Keeps.loadVariable name
  | none =>
    rw [hd] at h
    exact (Keeps.thunkIndex (h (.thunk d) List.mem_cons_self)).bind fun i =>
      (Keeps.emit _ _).seq ((Keeps.emit _ _).seq (Keeps.emit _ _))

/-! ## Arguments -/

/-- Operands that come from source are refused for reasons of source. -/
lemma Keeps.checkOperands {o : Operands Term} (h : o.Paired) :
    G.Keeps w (Assemble.checkOperands o) (Assemble.checkOperands (o.rename G.ids)) := by
  have hlength : (o.rename G.ids).args.length = o.args.length := List.length_map ..
  have hcount : (o.rename G.ids).ellipsisCount = o.ellipsisCount := by
    unfold Operands.ellipsisCount Operands.rename
    rw [List.countP_map]
    exact congrArg (List.countP · o.args) (funext Term.isEllipsis_rename)
  have hnames : ¬ o.names.length ≠ o.args.length := by
    rw [h.names, h.length, List.length_map]
    exact fun hne => hne rfl
  unfold Assemble.checkOperands
  rw [hcount, hlength, if_neg hnames,
    if_neg (show ¬ (o.rename G.ids).names.length ≠ o.args.length from hnames)]
  by_cases hmany : o.ellipsisCount > 1
  · rw [if_pos hmany, if_pos hmany]
    exact Twins.throw (e := .multipleEllipsis o.site.call.text) trivial
  · rw [if_neg hmany, if_neg hmany]
    by_cases hmax : o.args.length ≥ maxConstants
    · rw [if_pos hmax, if_pos hmax]
      refine Twins.throw (e := .defect (.tooManyArguments o.site.call.text)) ⟨o.site.call, rfl, ?_⟩
      rw [← h.length]
      exact hmax
    · rw [if_neg hmax, if_neg hmax]
      exact Keeps.pure ()

lemma Keeps.addArgument (name : Option Symbol) :
    G.Keeps w (Assemble.addArgument name) (Assemble.addArgument name) := by
  cases name with
  | none => exact Keeps.emit _ _
  | some s => exact (Keeps.nameIndex s).bind fun _ => Keeps.emit _ _

lemma ellipsisIndex?_rename (ids : IdSource) (o : Operands Term) :
    (o.rename ids).ellipsisIndex? = o.ellipsisIndex? := by
  unfold Operands.ellipsisIndex? Operands.rename
  rw [List.findIdx?_map]
  exact congrArg (List.findIdx? · o.args) (funext Term.isEllipsis_rename)

lemma Keeps.storeEllipsis (o : Operands Term) :
    G.Keeps w (Assemble.storeEllipsis o) (Assemble.storeEllipsis (o.rename G.ids)) := by
  unfold Assemble.storeEllipsis
  rw [ellipsisIndex?_rename]
  cases o.ellipsisIndex? with
  | none => exact Keeps.pure ()
  | some i => exact (Keeps.emit _ _).seq (Keeps.emit _ _)

lemma Keeps.nameArguments (names : List (Option Symbol)) (position : Nat) :
    G.Keeps w (Assemble.nameArguments names position)
      (Assemble.nameArguments names position) := by
  induction names generalizing position with
  | nil => exact Keeps.pure ()
  | cons name rest ih =>
    cases name with
    | none => exact ih (position + 1)
    | some s =>
      exact (Keeps.nameIndex s).bind fun i => (Keeps.emit _ _).seq (ih (position + 1))

lemma Keeps.splice (op : Opcode) (o : Operands Term) :
    G.Keeps w (Assemble.splice op o) (Assemble.splice op (o.rename G.ids)) := by
  unfold Assemble.splice
  rw [ellipsisIndex?_rename]
  cases o.ellipsisIndex? with
  | none => exact Keeps.pure ()
  | some i => exact (Keeps.emit _ _).seq (Keeps.emit _ _)

lemma Keeps.pushNames (o : Operands Term) :
    G.Keeps w (Assemble.pushNames o) (Assemble.pushNames (o.rename G.ids)) := by
  have hlength : (o.rename G.ids).args.length = o.args.length := List.length_map ..
  unfold Assemble.pushNames
  rw [hlength]
  exact (Keeps.emit _ _).seq ((Keeps.nameArguments o.names 0).seq (Keeps.splice .spliceNames o))

lemma Keeps.pushBuiltinFrame (o : Operands Term) :
    G.Keeps w (Assemble.pushBuiltinFrame o) (Assemble.pushBuiltinFrame (o.rename G.ids)) := by
  have hlength : (o.rename G.ids).args.length = o.args.length := List.length_map ..
  unfold Assemble.pushBuiltinFrame
  rw [hlength]
  exact (Keeps.storeEllipsis o).seq ((Keeps.emit _ _).seq ((Keeps.emit _ _).seq
    ((Keeps.pushCall o.site).seq ((Keeps.pushNames o).seq (Keeps.emit _ _)))))

/-- The three ways of a call, given the two that pass arguments. The targets of the three ways are
placed before the call ends. -/
lemma Keeps.dispatch {o : Operands Term} {c c' v v' : Assemble Unit}
    (hc : ∀ w' : Standing, w'.keys = w.keys → G.Keeps w' c c')
    (hv : ∀ w' : Standing, w'.keys = w.keys → G.Keeps w' v v') :
    G.Keeps w (Assemble.dispatch o c v) (Assemble.dispatch (o.rename G.ids) c' v') := by
  unfold Assemble.dispatch
  refine Twins.freshMark.bind fun b => Twins.freshMark.bind fun l => Twins.freshMark.bind fun f => ?_
  have hb : b ∈ (((w.await b).await l).await f).known := by simp [Standing.await]
  have hl : l ∈ (((w.await b).await l).await f).known := by simp [Standing.await]
  have hf : f ∈ (((w.await b).await l).await f).known := by simp [Standing.await]
  refine (Keeps.emit _ _).seq ((Keeps.emit _ _).seq ((Keeps.jump .jumpIfNonZero hb).seq
    ((Keeps.emit _ _).seq ((Keeps.emit _ _).seq ((Keeps.jump .jumpIfNonZero hl).seq ?_)))))
  refine (Keeps.emit _ _).seq ((Keeps.emit _ _).seq ((Keeps.pushCall o.site).seq
    ((Keeps.emit _ _).seq ((Keeps.jump .jump hf).seq ?_))))
  refine (Twins.place (List.Perm.swap l f (b :: w.idle))).bind fun _ => ?_
  refine (Keeps.emit _ _).seq ((Keeps.emit _ _).seq ((Keeps.pushCall o.site).seq
    ((Keeps.emit _ _).seq ((hc _ (by rfl)).seq ((Keeps.emit _ _).seq
      ((Keeps.jump .jump (by exact hf)).seq ?_))))))
  refine (Twins.place (List.Perm.swap b f w.idle)).bind fun _ => ?_
  refine (Keeps.emit _ _).seq ((Keeps.pushBuiltinFrame o).seq ((hv _ (by rfl)).seq
    ((Keeps.splice .spliceValues o).seq ((Keeps.emit _ _).seq ?_))))
  refine (Twins.place (List.Perm.refl (f :: w.idle))).mono fun _ a a' h => ?_
  exact h.mono (fun _ hk => hk) rfl rfl fun m hm => by simp [Standing.await, hm]

lemma Keeps.findFunction (name : Symbol) :
    G.Keeps w (Assemble.findFunction name) (Assemble.findFunction name) :=
  (Keeps.nameIndex name).bind fun _ => Keeps.emit _ _

lemma Keeps.checkFunction (o : Operands Term) :
    G.Keeps w (Assemble.checkFunction o) (Assemble.checkFunction (o.rename G.ids)) :=
  (Keeps.callIndex o.site).bind fun _ => Keeps.emit _ _

/-! ## Operands -/

/-- What an operand needs: its slots are assigned, the names of its arguments run beside these, and
the units of what it meets do not depend on identities. -/
structure Ready (G : Ground) (nested nested' : Nested) (keys : List SlotKey) (t : Term) :
    Prop where
  reads : ∀ k ∈ t.reads, k ∈ keys
  paired : t.Paired
  units : ∀ v ∈ t.visits, v.Coincides G.ids nested nested'

mutual

/-- The code of an operand. -/
theorem Keeps.term {w : Standing} : ∀ t : Term, G.Ready nested nested' w.keys t →
    G.Keeps w (Assemble.term nested t) (Assemble.term nested' (t.rename G.ids))
  | .int n, _ => (Keeps.emit _ _).seq (Keeps.pure _)
  | .literal e, _ => (Keeps.pushLiteral e).seq (Keeps.pure _)
  | .temp id, h => Keeps.loadSlot (k := .temp id) (h.reads _ List.mem_cons_self) _ _
  | .local id _, h => Keeps.loadSlot (k := .local id) (h.reads _ List.mem_cons_self) _ _
  | .env name, _ => (Keeps.loadVariable name).seq (Keeps.pure _)
  | .element vector index, h => by
    have hv : G.Ready nested nested' w.keys vector := ⟨fun k hk => h.reads k (List.mem_append_left _ hk),
      h.paired.1, fun v hv => h.units v (List.mem_append_left _ hv)⟩
    have hi : G.Ready nested nested' w.keys index := ⟨fun k hk => h.reads k (List.mem_append_right _ hk),
      h.paired.2, fun v hv => h.units v (List.mem_append_right _ hv)⟩
    exact (Keeps.term vector hv).boxed.seq ((Keeps.term index hi).unboxed.seq
      ((Keeps.emit _ _).seq (Keeps.pure _)))
  | .length t, h => by
    have ht : G.Ready nested nested' w.keys t := ⟨h.reads, h.paired, h.units⟩
    exact (Keeps.term t ht).boxed.seq ((Keeps.emit _ _).seq (Keeps.pure _))
  | .increment t, h => by
    have ht : G.Ready nested nested' w.keys t := ⟨h.reads, h.paired, h.units⟩
    exact (Keeps.term t ht).unboxed.seq ((Keeps.emit _ _).seq ((Keeps.emit _ _).seq (Keeps.pure _)))
  | .atLeast left right, h => by
    have hl : G.Ready nested nested' w.keys left := ⟨fun k hk => h.reads k (List.mem_append_left _ hk),
      h.paired.1, fun v hv => h.units v (List.mem_append_left _ hv)⟩
    have hr : G.Ready nested nested' w.keys right := ⟨fun k hk => h.reads k (List.mem_append_right _ hk),
      h.paired.2, fun v hv => h.units v (List.mem_append_right _ hv)⟩
    exact (Keeps.term left hl).boxed.seq ((Keeps.term right hr).boxed.seq
      ((Keeps.emit _ _).seq (Keeps.pure _)))
  | .closure node p, h => by
    obtain ⟨hbody, hdefaults⟩ := h.units (.closure node p) List.mem_cons_self
    rw [Term.rename_closure]
    exact (Keeps.closureIndex hbody hdefaults).bind fun i =>
      (Keeps.emit _ _).seq ((Keeps.emit _ _).seq (Keeps.pure _))
  | .thunk d, h => by
    rw [Term.rename_thunk]
    exact (Keeps.evaluateThunk h.units).seq (Keeps.pure _)
  | .ellipsis, _ => Twins.throw (e := .misplacedEllipsis) trivial
  | .primitive name ⟨site, args, names⟩, h => by
    obtain ⟨hpaired, hall⟩ := h.paired
    have hargs := Keeps.builtinValues (w := w) args 0 h.reads hall fun v hv =>
      h.units v (List.mem_cons_of_mem _ hv)
    simp only [Term.rename, Assemble.term]
    rw [Term.renameAll_eq] at hargs ⊢
    refine (Keeps.checkOperands hpaired).seq ?_
    by_cases hb : (Builtin.ofName? name.name).isNone
    · rw [if_pos hb, if_pos hb]
      exact fun _ _ ha => .error (e := .unknownPrimitive name.name) trivial ha.journal
    · rw [if_neg hb, if_neg hb]
      exact (Keeps.primitiveIndex name).bind fun i => (Keeps.pushBuiltinFrame _).seq
        (hargs.seq ((Keeps.splice .spliceValues _).seq ((Keeps.emit _ _).seq (Keeps.pure _))))
  | .call (.name name) ⟨site, args, names⟩, h => by
    obtain ⟨hpaired, hall⟩ := h.paired
    have hunits : ∀ v ∈ Term.visitsOf args, v.Coincides G.ids nested nested' := fun v hv =>
      h.units v (by simp [Term.visits, hv])
    have hvalues : ∀ w' : Standing, w'.keys = w.keys → G.Keeps w'
        (Assemble.builtinValues nested args 0)
        (Assemble.builtinValues nested' (Term.renameAll G.ids args) 0) := fun w' hw =>
      Keeps.builtinValues args 0 (by rw [hw]; exact h.reads) hall hunits
    have hclosure : ∀ w' : Standing, w'.keys = w.keys → G.Keeps w'
        (Assemble.closureArguments nested args names)
        (Assemble.closureArguments nested' (Term.renameAll G.ids args) names) := fun w' hw =>
      Keeps.closureArguments args names (by rw [hw]; exact h.reads) hall hunits
    simp only [Term.rename, Assemble.term]
    rw [Term.renameAll_eq] at hvalues hclosure ⊢
    exact (Keeps.checkOperands hpaired).seq ((Keeps.findFunction name).seq
      ((Keeps.dispatch hclosure hvalues).seq (Keeps.pure _)))
  | .call (.computed t) ⟨site, args, names⟩, h => by
    obtain ⟨hterm, hpaired, hall⟩ := h.paired
    have ht : G.Ready nested nested' w.keys t := ⟨fun k hk => h.reads k (List.mem_append_left _ hk),
      hterm, fun v hv => h.units v (List.mem_append_left _ hv)⟩
    have hreads : ∀ k ∈ Term.readsOf args, k ∈ w.keys := fun k hk =>
      h.reads k (List.mem_append_right _ hk)
    have hunits : ∀ v ∈ Term.visitsOf args, v.Coincides G.ids nested nested' := fun v hv =>
      h.units v (by simp [Term.visits, hv])
    have hvalues : ∀ w' : Standing, w'.keys = w.keys → G.Keeps w'
        (Assemble.builtinValues nested args 0)
        (Assemble.builtinValues nested' (Term.renameAll G.ids args) 0) := fun w' hw =>
      Keeps.builtinValues args 0 (by rw [hw]; exact hreads) hall hunits
    have hclosure : ∀ w' : Standing, w'.keys = w.keys → G.Keeps w'
        (Assemble.closureArguments nested args names)
        (Assemble.closureArguments nested' (Term.renameAll G.ids args) names) := fun w' hw =>
      Keeps.closureArguments args names (by rw [hw]; exact hreads) hall hunits
    simp only [Term.rename, Assemble.term]
    rw [Term.renameAll_eq] at hvalues hclosure ⊢
    exact (Keeps.checkOperands hpaired).seq ((Keeps.term t ht).boxed.seq
      ((Keeps.checkFunction _).seq ((Keeps.dispatch hclosure hvalues).seq (Keeps.pure _))))

/-- The code of the arguments of a closure. -/
theorem Keeps.closureArguments {w : Standing} : ∀ (ts : List Term) (names : List (Option Symbol)),
    (∀ k ∈ Term.readsOf ts, k ∈ w.keys) → Term.PairedAll ts →
    (∀ v ∈ Term.visitsOf ts, v.Coincides G.ids nested nested') →
    G.Keeps w (Assemble.closureArguments nested ts names)
      (Assemble.closureArguments nested' (Term.renameAll G.ids ts) names)
  | [], _, _, _, _ => by
    simp only [Term.renameAll, Assemble.closureArguments]
    exact Keeps.pure ()
  | _ :: _, [], _, _, _ => by
    simp only [Term.renameAll, Assemble.closureArguments]
    exact Keeps.pure ()
  | t :: ts, name :: names, hreads, ⟨hpaired, hall⟩, hunits => by
    have ht : G.Ready nested nested' w.keys t := ⟨fun k hk => hreads k (List.mem_append_left _ hk),
      hpaired, fun v hv => hunits v (List.mem_append_left _ hv)⟩
    have hrest := Keeps.closureArguments ts names (fun k hk => hreads k (List.mem_append_right _ hk))
      hall fun v hv => hunits v (List.mem_append_right _ hv)
    cases t with
    | ellipsis => exact (Keeps.emit _ _).seq ((Keeps.emit _ _).seq hrest)
    | thunk d =>
      simp only [Term.renameAll, Term.rename_thunk, Assemble.closureArguments]
      have hname : (d.rename G.ids).name? = d.name? := rfl
      have hunits : ∀ v ∈ Emits.lateVisits d, v.Coincides G.ids nested nested' := ht.units
      rw [hname]
      unfold Emits.lateVisits at hunits
      cases hd : d.name? with
      | some bare =>
        exact (Keeps.nameIndex bare).bind fun i => (Keeps.emit _ _).seq ((Keeps.emit _ _).seq
          ((Keeps.addArgument name).seq hrest))
      | none =>
        rw [hd] at hunits
        exact (Keeps.thunkIndex (hunits (.thunk d) List.mem_cons_self)).bind fun i =>
          (Keeps.emit _ _).seq ((Keeps.emit _ _).seq ((Keeps.emit _ _).seq
            ((Keeps.addArgument name).seq hrest)))
    | call f o =>
      have hcall := Keeps.term (.call f o) ht
      simp only [Term.renameAll, Term.rename_call] at hcall ⊢
      exact hcall.boxed.seq ((Keeps.addArgument name).seq hrest)
    | _ => exact (Keeps.term _ ht).boxed.seq ((Keeps.addArgument name).seq hrest)

/-- The code of the values of a builtin. -/
theorem Keeps.builtinValues {w : Standing} : ∀ (ts : List Term) (position : Nat),
    (∀ k ∈ Term.readsOf ts, k ∈ w.keys) → Term.PairedAll ts →
    (∀ v ∈ Term.visitsOf ts, v.Coincides G.ids nested nested') →
    G.Keeps w (Assemble.builtinValues nested ts position)
      (Assemble.builtinValues nested' (Term.renameAll G.ids ts) position)
  | [], _, _, _, _ => Keeps.pure ()
  | t :: ts, position, hreads, ⟨hpaired, hall⟩, hunits => by
    have ht : G.Ready nested nested' w.keys t := ⟨fun k hk => hreads k (List.mem_append_left _ hk),
      hpaired, fun v hv => hunits v (List.mem_append_left _ hv)⟩
    have hrest := Keeps.builtinValues ts (position + 1)
      (fun k hk => hreads k (List.mem_append_right _ hk)) hall fun v hv =>
        hunits v (List.mem_append_right _ hv)
    cases t with
    | ellipsis => exact hrest
    | thunk d =>
      simp only [Term.renameAll, Term.rename_thunk, Assemble.builtinValues]
      exact (Keeps.evaluateThunk ht.units).seq ((Keeps.emit _ _).seq hrest)
    | call f o =>
      have hcall := Keeps.term (.call f o) ht
      simp only [Term.renameAll, Term.rename_call] at hcall ⊢
      exact hcall.boxed.seq ((Keeps.emit _ _).seq hrest)
    | _ => exact (Keeps.term _ ht).boxed.seq ((Keeps.emit _ _).seq hrest)

end

end Ground

end CallByNeed
