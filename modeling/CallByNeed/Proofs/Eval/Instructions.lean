import CallByNeed.Proofs.Code.Tables
import CallByNeed.Proofs.Eval.Tracks

/-!
# What each instruction carries out

One rule of `Tracks` for each kind of instruction: from the words it finds on top of the stack, the
action it carries out and the words it leaves.
-/

namespace CallByNeed

open CallByNeed.Flow (Frame Action Scene)

/-! ## Running the parts of instructions -/

namespace Machine

variable {α β : Type} {s : Store} {p : Nat} {st : List Word} {S : Array Word}

@[simp] lemma bind_apply (c : Stepping α) (f : α → Stepping β) (m : Machine) (s : Store) :
    (c >>= f) m s = match c m s with
      | .ok (x, m') s' => f x m' s'
      | .error h s' => .error h s' := by
  show EStateM.bind (c m) (fun r => f r.1 r.2) s = _
  unfold EStateM.bind
  cases c m s <;> rfl

@[simp] lemma pure_apply (a : α) (m : Machine) (s : Store) :
    (pure a : Stepping α) m s = .ok (a, m) s := rfl

@[simp] lemma lift_apply (act : Eval α) (m : Machine) (s : Store) :
    (liftM act : Stepping α) m s = match act s with
      | .ok a s' => .ok (a, m) s'
      | .error h s' => .error h s' := by
  show EStateM.bind act (fun a => pure (a, m)) s = _
  unfold EStateM.bind
  cases act s <;> rfl

@[simp] lemma defect_apply (fault : InternalFault) (m : Machine) (s : Store) :
    (defect fault : Stepping α) m s = .error (.error (.internal fault)) s := rfl

@[simp] lemma pop_cons (w : Word) : pop ⟨p, w :: st, S⟩ s = .ok (w, ⟨p, st, S⟩) s := rfl

@[simp] lemma top_cons (w : Word) : top ⟨p, w :: st, S⟩ s = .ok (w, ⟨p, w :: st, S⟩) s := rfl

@[simp] lemma push_apply (w : Word) : push w ⟨p, st, S⟩ s = .ok ((), ⟨p, w :: st, S⟩) s := rfl

@[simp] lemma pushValue_apply (v : Value) :
    pushValue v ⟨p, st, S⟩ s = .ok ((), ⟨p, .value v :: st, S⟩) s := rfl

@[simp] lemma popValue_cons (v : Value) :
    popValue ⟨p, .value v :: st, S⟩ s = .ok (v, ⟨p, st, S⟩) s := rfl

@[simp] lemma popInt_cons (n : Int32) :
    popInt ⟨p, .int n :: st, S⟩ s = .ok (n, ⟨p, st, S⟩) s := rfl

@[simp] lemma popContext_cons :
    popContext ⟨p, .context :: st, S⟩ s = .ok ((), ⟨p, st, S⟩) s := rfl

@[simp] lemma popEnv_cons (e : EnvId) :
    popEnv ⟨p, .env e :: st, S⟩ s = .ok (e, ⟨p, st, S⟩) s := rfl

@[simp] lemma popCall_cons (c : Call) :
    popCall ⟨p, .call c :: st, S⟩ s = .ok (c, ⟨p, st, S⟩) s := rfl

@[simp] lemma popNames_cons (ns : Array (Option Symbol)) :
    popNames ⟨p, .names ns :: st, S⟩ s = .ok (ns, ⟨p, st, S⟩) s := rfl

@[simp] lemma popValues_cons (vs : Array Value) :
    popValues ⟨p, .values vs :: st, S⟩ s = .ok (vs, ⟨p, st, S⟩) s := rfl

@[simp] lemma popArgs_cons (as : Array (Arg Value)) :
    popArgs ⟨p, .args as :: st, S⟩ s = .ok (as, ⟨p, st, S⟩) s := rfl

@[simp] lemma popDots_cons (dots : ArgList) :
    popDots ⟨p, .value (.dots dots) :: st, S⟩ s = .ok (dots, ⟨p, st, S⟩) s := rfl

/-- Reading a slot. -/
lemma slot_read (i : Nat) (m : Machine) :
    slot i m = (match m.slots[i]? with
      | some w => (return w : Stepping Word)
      | none => defect (.slotRange i)) m := rfl

/-- What a slot holds. -/
lemma slot_apply {i : Nat} {w : Word} (h : S[i]? = some w) :
    slot i ⟨p, st, S⟩ s = .ok (w, ⟨p, st, S⟩) s := by
  simp only [slot_read, h]
  rfl

/-- Storing in a slot of the frame. -/
lemma setSlot_apply {i : Nat} {w w' : Word} (h : S[i]? = some w') :
    setSlot i w ⟨p, st, S⟩ s = .ok ((), ⟨p, st, S.setIfInBounds i w⟩) s := by
  unfold setSlot
  rw [bind_apply, slot_apply h]
  rfl

variable {u : CodeUnit} {op : Opcode} {i n : Nat}

/-- Reading an operand. -/
lemma operand_read (u : CodeUnit) (width skip : Nat) (m : Machine) :
    operand u width skip m = (match u.code.operand? m.position width skip with
      | some n => (return n : Stepping Nat)
      | none => throw Halt.abort) m := rfl

/-- The operand of an instruction that has one. -/
lemma operand_apply {width : Nat} (h : u.code.Holds p ⟨op, [n]⟩) (hw : op.widths = [width]) :
    operand u width 0 ⟨p, st, S⟩ s = .ok (n, ⟨p, st, S⟩) s := by
  simp only [operand_read, h.operand hw]
  rfl

/-- The operands of an instruction that has two. -/
lemma operand_apply_pair {width width' n' : Nat} (h : u.code.Holds p ⟨op, [n, n']⟩)
    (hw : op.widths = [width, width']) :
    operand u width 0 ⟨p, st, S⟩ s = .ok (n, ⟨p, st, S⟩) s ∧
      operand u width' width ⟨p, st, S⟩ s = .ok (n', ⟨p, st, S⟩) s := by
  have hread : ∀ {width skip n}, u.code.operand? p width skip = some n →
      operand u width skip ⟨p, st, S⟩ s = .ok (n, ⟨p, st, S⟩) s := by
    intro width skip n hn
    simp only [operand_read, hn]
    rfl
  exact ⟨hread (h.operand_pair hw).1, hread (h.operand_pair hw).2⟩

/-- A constant that the unit has. -/
lemma constant_apply {c : Constant} (h : u.constants[i]? = some c) (m : Machine) (s : Store) :
    constant u i m s = .ok (c, m) s := by
  unfold constant
  rw [h]
  rfl

/-- The name that an operand refers to. -/
lemma nameOperand_apply {name : Symbol} (h : u.code.Holds p ⟨op, [i]⟩) (hw : op.widths = [2])
    (hc : u.constants[i]? = some (.name name)) :
    nameOperand u 0 ⟨p, st, S⟩ s = .ok (name, ⟨p, st, S⟩) s := by
  unfold nameOperand
  simp [operand_apply h hw, constant_apply hc]

/-- The call that an operand refers to. -/
lemma callOperand_apply {c : Call} (h : u.code.Holds p ⟨op, [i]⟩) (hw : op.widths = [2])
    (hc : u.constants[i]? = some (.call c)) :
    callOperand u ⟨p, st, S⟩ s = .ok (c, ⟨p, st, S⟩) s := by
  unfold callOperand
  simp [operand_apply h hw, constant_apply hc]

/-- The late argument that an operand refers to. -/
lemma thunkOperand_apply {t : CodeUnit} (h : u.code.Holds p ⟨op, [i]⟩) (hw : op.widths = [2])
    (ht : u.thunks[i]? = some t) :
    thunkOperand u ⟨p, st, S⟩ s = .ok (t, ⟨p, st, S⟩) s := by
  unfold thunkOperand
  simp [operand_apply h hw, ht]

/-- The function literal that an operand refers to. -/
lemma closureOperand_apply {f : FunctionUnit} (h : u.code.Holds p ⟨op, [i]⟩)
    (hw : op.widths = [2]) (hf : u.closures[i]? = some f) :
    closureOperand u ⟨p, st, S⟩ s = .ok (f, ⟨p, st, S⟩) s := by
  unfold closureOperand
  simp [operand_apply h hw, hf]

/-- A jump goes to its operand if the condition holds. -/
lemma jumpIf_apply {target : Nat} (h : u.code.Holds p ⟨op, [target]⟩) (hw : op.widths = [2])
    (c : Bool) :
    jumpIf u c ⟨p, st, S⟩ s = .ok (if c then .jump target else .next, ⟨p, st, S⟩) s := by
  cases c with
  | false => rfl
  | true =>
    show (operand u 2 >>= fun target => pure (Transfer.jump target)) ⟨p, st, S⟩ s = _
    rw [bind_apply, operand_apply h hw]
    rfl

/-- Evaluations in order may be lifted one by one. -/
lemma mapM_lift (f : α → Eval β) (l : List α) (m : Machine) (s : Store) :
    (l.mapM (fun a => (liftM (f a) : Stepping β)) : Stepping (List β)) m s
      = match l.mapM f s with
        | .ok bs s' => .ok (bs, m) s'
        | .error e s' => .error e s' := by
  induction l generalizing s with
  | nil => rfl
  | cons a l ih =>
    have hcons : (a :: l).mapM f s = match f a s with
        | .ok b s' =>
          match l.mapM f s' with
          | .ok bs s'' => .ok (b :: bs) s''
          | .error e s'' => .error e s''
        | .error e s' => .error e s' := by
      rw [List.mapM_cons]
      show EStateM.bind (f a) (fun b => EStateM.bind (l.mapM f) fun bs => pure (b :: bs)) s = _
      unfold EStateM.bind
      cases f a s with
      | error e s' => rfl
      | ok b s' =>
        dsimp only
        cases l.mapM f s' <;> rfl
    rw [List.mapM_cons, hcons]
    simp only [bind_apply, lift_apply]
    cases f a s with
    | error e s' => rfl
    | ok b s' =>
      dsimp only
      rw [ih]
      cases l.mapM f s' <;> rfl

/-- Splicing into an array is splicing into the list of its entries. -/
lemma spliced_toArray (as : List α) (n : Nat) (entries : List α) :
    spliced as.toArray n entries = (Flow.splicedAt as n entries).toArray := by
  have hrest : (as.drop (n + 1)).take (as.length - (n + 1)) = as.drop (n + 1) :=
    List.take_of_length_le (by simp)
  unfold spliced Flow.splicedAt
  simp [hrest]

/-- The result of a builtin. -/
lemma invoke_apply (b : Builtin) (c : Call) (ns : List (Option Symbol)) (vs : List Value)
    (m : Machine) (s : Store) :
    invoke b c ns vs m s = match Flow.ofResult (b.invoke c ns vs) s with
      | .ok v s' => .ok (v, m) s'
      | .error e s' => .error e s' := by
  unfold invoke
  cases b.invoke c ns vs <;> rfl

/-- The error of the right operand comes first. -/
lemma atLeast_order (a b : Value) :
    (do
      let _ ← Eval.ofExcept (b.asDouble ">=")
      Eval.ofExcept (a.atLeast b) : Eval Bool) = Eval.ofExcept (a.atLeast b) := by
  funext s
  cases hb : b.asDouble ">=" with
  | ok y => rfl
  | error e =>
    have hab : a.atLeast b = .error e := by
      unfold Value.atLeast
      split
      · simp [Value.asDouble] at hb
      · rw [hb]
        rfl
    rw [hab]
    rfl

end Machine

/-! ## Slots -/

/-- A native integer is read back from its operand. -/
lemma intOfOperand_intOperand (n : Int32) : intOfOperand (intOperand n) = n := by
  simp [intOfOperand, intOperand]

namespace Holds

variable {slots : Slots} {env : EnvId} {F : Frame} {S : Array Word}

/-- A slot that is stored in keeps the new value, and the others what they kept. -/
lemma set (hs : slots.Sound) (h : Holds slots env F S) {key : Flow.SlotKey} {slot : Slot}
    (hl : slots.lookup? key = some slot) {v : Value} {w : Word}
    (hw : Word.Keeps slot.kind (some v) w) :
    Holds slots env (F.set key v) (S.setIfInBounds slot.index w) := by
  have hrange := hs.range hl
  obtain ⟨old, hold, -⟩ := h.slot key slot hl
  have hlt : slot.index < S.size := (Array.getElem?_eq_some_iff.1 hold).1
  have hother : ∀ i, i ≠ slot.index → (S.setIfInBounds slot.index w)[i]? = S[i]? := by
    intro i hi
    rw [Array.getElem?_setIfInBounds, if_neg (Ne.symm hi)]
  refine ⟨?_, ?_, ?_, fun key' slot' hl' => ?_⟩
  · rw [hother _ (by unfold contextSlot; unfold firstLocalSlot workSlot at hrange; omega)]
    exact h.context
  · rw [hother _ (by unfold environmentSlot; unfold firstLocalSlot workSlot at hrange; omega)]
    exact h.environment
  · rw [hother _ (by unfold firstLocalSlot at hrange; omega)]
    exact h.work
  · by_cases heq : slot'.index = slot.index
    · obtain ⟨rfl, rfl⟩ := hs.inj hl' hl heq
      refine ⟨w, ?_, ?_⟩
      · rw [Array.getElem?_setIfInBounds, if_pos rfl, if_pos hlt]
      · simpa [Flow.Frame.set] using hw
    · have hne : key' ≠ key := by
        rintro rfl
        rw [hl] at hl'
        cases hl'
        exact heq rfl
      obtain ⟨w', hw', hkeeps⟩ := h.slot key' slot' hl'
      refine ⟨w', by rw [hother _ heq, hw'], ?_⟩
      simpa [Flow.Frame.set, hne] using hkeeps

/-- The work slot keeps the caller's `...`. -/
lemma setWork (hs : slots.Sound) (h : Holds slots env F S) (dots : ArgList) :
    Holds slots env { F with work := some dots }
      (S.setIfInBounds workSlot (.value (.dots dots))) := by
  have hlt : workSlot < S.size := (Array.getElem?_eq_some_iff.1 h.work).1
  have hother : ∀ i, i ≠ workSlot →
      (S.setIfInBounds workSlot (.value (.dots dots)))[i]? = S[i]? := by
    intro i hi
    rw [Array.getElem?_setIfInBounds, if_neg (Ne.symm hi)]
  refine ⟨?_, ?_, ?_, fun key slot hl => ?_⟩
  · rw [hother _ (by unfold contextSlot workSlot; omega)]
    exact h.context
  · rw [hother _ (by unfold environmentSlot workSlot; omega)]
    exact h.environment
  · rw [Array.getElem?_setIfInBounds, if_pos rfl, if_pos hlt]
    rfl
  · have hrange := hs.range hl
    obtain ⟨w, hw, hkeeps⟩ := h.slot key slot hl
    exact ⟨w, by rw [hother _ (by unfold firstLocalSlot at hrange; omega), hw], hkeeps⟩

end Holds

namespace Tracks

open Machine

variable {X : Site} {p i n : Nat}

/-! ## Slots -/

/-- Pushing what is in a slot that is not empty. -/
lemma step_load {st : List Word} {S : Array Word} {s : Store} {w : Word}
    (h : X.unit.code.Holds p ⟨.load, [i]⟩) (hw : S[i]? = some w) (hne : w ≠ .empty) :
    X.step .load ⟨p, st, S⟩ s = .ok (.next, ⟨p, w :: st, S⟩) s := by
  simp only [Site.step, Machine.step, bind_apply, operand_apply h rfl, slot_apply hw]
  cases w <;> first | exact absurd rfl hne | rfl

/-- Pushing the context. -/
lemma loadContext (h : X.unit.code.Holds p ⟨.load, [contextSlot]⟩) :
    Tracks X p [] (pure ()) (At (p + Opcode.load.size) fun _ => [.context]) := by
  intro rest S F s hF
  exact ⟨_, [.context], S, ⟨rfl, rfl⟩, hF, .one h.op (step_load h hF.context (by simp))⟩

/-- Pushing the environment. -/
lemma loadEnvironment (h : X.unit.code.Holds p ⟨.load, [environmentSlot]⟩) :
    Tracks X p [] (pure ()) (At (p + Opcode.load.size) fun _ => [.env X.env]) := by
  intro rest S F s hF
  exact ⟨_, [.env X.env], S, ⟨rfl, rfl⟩, hF, .one h.op (step_load h hF.environment (by simp))⟩

/-- Pushing the caller's `...`. -/
lemma loadWork (h : X.unit.code.Holds p ⟨.load, [workSlot]⟩) :
    Tracks X p [] Action.work (fun dots q ws =>
      q = p + Opcode.load.size ∧ ws = [.value (.dots dots)]) := by
  intro rest S F s hF
  have hwork := hF.work
  unfold Action.work
  cases hw : F.work with
  | some dots =>
    rw [hw] at hwork
    exact ⟨_, [.value (.dots dots)], S, ⟨rfl, rfl⟩, hF,
      .one h.op (step_load h hwork (by simp [workWord]))⟩
  | none =>
    rw [hw] at hwork
    have hstep : X.step .load ⟨p, rest, S⟩ s
        = .error (.error (.internal (.unassignedSlot workSlot))) s := by
      simp only [Site.step, Machine.step, bind_apply, operand_apply h rfl, slot_apply hwork]
      rfl
    exact .one h.op hstep (.internal _ _ s)

/-- Executing a store in the work slot. -/
lemma step_storeWork {st : List Word} {S : Array Word} {w old : Word}
    (h : X.unit.code.Holds p ⟨.store, [workSlot]⟩) (hold : S[workSlot]? = some old) (s : Store) :
    X.step .store ⟨p, w :: st, S⟩ s = .ok (.next, ⟨p, st, S.setIfInBounds workSlot w⟩) s := by
  simp only [Site.step, Machine.step, bind_apply, pop_cons, operand_apply h rfl, setSlot_apply hold]
  rfl

/-- Keeping the caller's `...`. -/
lemma storeWork (hs : X.slots.Sound) (h : X.unit.code.Holds p ⟨.store, [workSlot]⟩)
    (dots : ArgList) :
    Tracks X p [.value (.dots dots)] (modify fun F => { F with work := some dots })
      (At (p + Opcode.store.size) fun _ => []) := by
  intro rest S F s hF
  exact ⟨_, [], _, ⟨rfl, rfl⟩, hF.setWork hs dots, .one h.op (step_storeWork h hF.work s)⟩

/-- The instruction that pushes a slot of a kind. -/
def loadOp : SlotKind → Opcode
  | .int => .loadInt
  | .value => .load

/-- Reading a slot. -/
lemma load {key : Flow.SlotKey} {slot : Slot} (hl : X.slots.lookup? key = some slot)
    (h : X.unit.code.Holds p ⟨loadOp slot.kind, [slot.index]⟩) :
    Tracks X p [] (Action.read key) (fun v q ws => q = p + (loadOp slot.kind).size ∧
      ∃ w, ws = [w] ∧ Word.Keeps slot.kind (some v) w) := by
  intro rest S F s hF
  obtain ⟨w, hw, hkeeps⟩ := hF.slot key slot hl
  obtain ⟨index, kind⟩ := slot
  unfold Action.read
  cases hv : F.slots key with
  | none =>
    rw [hv] at hkeeps
    have hstep : X.step (loadOp kind) ⟨p, rest, S⟩ s
        = .error (.error (.internal (.unassignedSlot index))) s := by
      cases kind <;> cases hkeeps <;>
        simp only [Site.step, Machine.step, loadOp, bind_apply, operand_apply h rfl, slot_apply hw] <;>
        rfl
    exact .one h.op hstep (.internal _ _ s)
  | some v =>
    rw [hv] at hkeeps
    have hstep : X.step (loadOp kind) ⟨p, rest, S⟩ s = .ok (.next, ⟨p, w :: rest, S⟩) s := by
      cases kind <;> cases hkeeps <;>
        simp only [Site.step, Machine.step, loadOp, bind_apply, operand_apply h rfl, slot_apply hw] <;>
        rfl
    exact ⟨_, [w], S, ⟨rfl, w, rfl, hkeeps⟩, hF, .one h.op hstep⟩

/-- The instruction that stores in a slot of a kind. -/
def storeOp : SlotKind → Opcode
  | .int => .storeInt
  | .value => .store

/-- Executing a store in the slot of a kind. -/
lemma step_store {slot : Slot} {st : List Word} {S : Array Word} {v : Value} {w old : Word}
    (h : X.unit.code.Holds p ⟨storeOp slot.kind, [slot.index]⟩)
    (hw : Word.Keeps slot.kind (some v) w) (hold : S[slot.index]? = some old) (s : Store) :
    X.step (storeOp slot.kind) ⟨p, w :: st, S⟩ s
      = .ok (.next, ⟨p, st, S.setIfInBounds slot.index w⟩) s := by
  obtain ⟨index, kind⟩ := slot
  cases kind <;> cases hw <;>
    simp only [Site.step, Machine.step, storeOp, bind_apply, pop_cons, popInt_cons,
      operand_apply h rfl, setSlot_apply hold] <;>
    rfl

/-- Assigning a slot. -/
lemma store (hs : X.slots.Sound) {key : Flow.SlotKey} {slot : Slot}
    (hl : X.slots.lookup? key = some slot)
    (h : X.unit.code.Holds p ⟨storeOp slot.kind, [slot.index]⟩) {v : Value} {w : Word}
    (hw : Word.Keeps slot.kind (some v) w) :
    Tracks X p [w] (Action.assign key v)
      (fun _ q ws => q = p + (storeOp slot.kind).size ∧ ws = []) := by
  intro rest S F s hF
  obtain ⟨old, hold, -⟩ := hF.slot key slot hl
  exact ⟨_, [], _, ⟨rfl, rfl⟩, hF.set hs hl hw, .one h.op (step_store h hw hold s)⟩

/-- Executing an increment in place. -/
lemma step_incLocal {index : Nat} {w : Word} {st : List Word} {S : Array Word}
    (h : X.unit.code.Holds p ⟨.incLocal, [index]⟩) (hw : S[index]? = some w) (s : Store) :
    X.step .incLocal ⟨p, st, S⟩ s = match w with
      | .int n =>
        match Value.int32? (n.toInt + 1) with
        | some n => .ok (.next, ⟨p, st, S.setIfInBounds index (.int n)⟩) s
        | none => .error (.error (.primitive "for" .counterOverflow)) s
      | w => .error (.error (.internal (.wrongWord "int" w.kind))) s := by
  simp only [Site.step, Machine.step, bind_apply, operand_apply h rfl, slot_apply hw]
  cases w with
  | int n =>
    dsimp only
    cases Value.int32? (n.toInt + 1) with
    | none => rfl
    | some m =>
      show (setSlot index (.int m) >>= fun _ => pure Transfer.next) ⟨p, st, S⟩ s = _
      rw [bind_apply, setSlot_apply hw]
      rfl
  | _ => rfl

/-- Increasing a counter in place. -/
lemma incLocal (hs : X.slots.Sound) {key : Flow.SlotKey} {slot : Slot}
    (hl : X.slots.lookup? key = some slot) (hk : slot.kind = .int)
    (h : X.unit.code.Holds p ⟨.incLocal, [slot.index]⟩) :
    Tracks X p [] (do
        let v ← Action.read key
        let n ← Action.lift (Eval.ofExcept (v.asInt "integer operand"))
        let m ← Action.lift (Flow.successor n)
        Action.assign key (.int m))
      (At (p + Opcode.incLocal.size) fun _ => []) := by
  intro rest S F s hF
  obtain ⟨w, hw, hkeeps⟩ := hF.slot key slot hl
  rw [hk] at hkeeps
  rw [Action.bind_apply, Action.read_apply]
  cases hv : F.slots key with
  | none =>
    rw [hv] at hkeeps
    cases hkeeps
    exact .one h.op (step_incLocal h hw s) (.internal _ _ s)
  | some v =>
    rw [hv] at hkeeps
    cases hkeeps with
    | int n =>
      have hint : Action.lift (Eval.ofExcept (Value.asInt "integer operand" (.int n))) F s
          = .ok (n, F) s := rfl
      dsimp only
      rw [Action.bind_apply, hint]
      dsimp only
      rw [Action.bind_apply, Action.lift_apply, Flow.successor_apply]
      cases hm : Value.int32? (n.toInt + 1) with
      | none =>
        have hstep : X.step .incLocal ⟨p, rest, S⟩ s
            = .error (.error (.primitive "for" .counterOverflow)) s := by
          rw [step_incLocal h hw]
          simp only [hm]
        exact .one h.op hstep (.refl _)
      | some m =>
        have hstep : X.step .incLocal ⟨p, rest, S⟩ s
            = .ok (.next, ⟨p, rest, S.setIfInBounds slot.index (.int m)⟩) s := by
          rw [step_incLocal h hw]
          simp only [hm]
        exact ⟨_, [], _, ⟨rfl, rfl⟩, hF.set hs hl (w := .int m) (by rw [hk]; exact .int m),
          .one h.op hstep⟩

/-! ## Jumps -/

/-- Jumping, with something on the stack. -/
lemma jump {target : Nat} (h : X.unit.code.Holds p ⟨.jump, [target]⟩) (w : Word) (ws : List Word) :
    Tracks X p (w :: ws) (pure ()) (At target fun _ => w :: ws) :=
  jumps (List.cons_ne_nil w ws) h fun rest S s => by
    simp only [Site.step, Machine.step, bind_apply, operand_apply h rfl]
    rfl

/-- Jumping unless an integer is zero, with something below it. -/
lemma jumpIfNonZero {target : Nat} (h : X.unit.code.Holds p ⟨.jumpIfNonZero, [target]⟩)
    (t : Bool) (w : Word) : Tracks X p [.ofBool t, w] (pure ())
      (At (if t then target else p + Opcode.jumpIfNonZero.size) fun _ => [w]) := by
  cases t with
  | false => exact (Site.Does.mk h fun _ _ _ => rfl).moves
  | true =>
    refine jumps (List.cons_ne_nil w []) h fun rest S s => ?_
    show (jumpIf X.unit true) ⟨p, w :: rest, S⟩ s = _
    exact jumpIf_apply h rfl true

/-- A jump that is taken if an integer is zero is not taken on any other one. -/
lemma jumpIfZero {target : Nat} (h : X.unit.code.Holds p ⟨.jumpIfZero, [target]⟩) :
    Tracks X p [.ofBool true] (pure ()) (At (p + Opcode.jumpIfZero.size) fun _ => []) :=
  (Site.Does.mk h fun _ _ _ => rfl).moves

/-- Executing a jump that is taken if an integer is less than another one. -/
lemma step_jumpIfIntLess {target : Nat} (h : X.unit.code.Holds p ⟨.jumpIfIntLess, [target]⟩)
    (a b : Int32) (rest : List Word) (S : Array Word) (s : Store) :
    X.step .jumpIfIntLess ⟨p, .int b :: .int a :: rest, S⟩ s
      = .ok (if decide (a < b) then .jump target else .next, ⟨p, rest, S⟩) s :=
  jumpIf_apply h rfl _

/-- A jump that is taken if an integer is less than another one is not taken otherwise. -/
lemma jumpIfIntLess {target : Nat} (h : X.unit.code.Holds p ⟨.jumpIfIntLess, [target]⟩)
    {a b : Int32} (hlt : ¬ a < b) : Tracks X p [.int b, .int a] (pure ())
      (At (p + Opcode.jumpIfIntLess.size) fun _ => []) := by
  refine (Site.Does.mk h fun rest S s => ?_).moves
  refine (step_jumpIfIntLess h a b rest S s).trans ?_
  simp only [decide_eq_false hlt]
  rfl

/-! ## Defects -/

/-- Calling what is no special form as one. -/
lemma applySpecial_stuck {post : Value → Nat → List Word → Prop}
    (h : X.unit.code.Holds p ⟨.applySpecial, []⟩) (c : Call) (e : EnvId) {v : Value}
    (hv : ∀ f, v ≠ .special f) :
    Tracks X p [.call c, .env e, .context, .value v] Action.stuck post := by
  have hrun : ∀ rest S s, X.step .applySpecial
      ⟨p, [.call c, .env e, .context, .value v] ++ rest, S⟩ s
        = .error (.error (.internal (.wrongCategory "special" c.text v.typeName))) s := by
    intro rest S s
    simp only [Site.step, Machine.step, Machine.applySpecial, bind_apply, List.cons_append,
      List.nil_append, popCall_cons, popEnv_cons, popContext_cons, popValue_cons]
    cases v with
    | special f => exact absurd rfl (hv f)
    | _ => rfl
  exact stuck h hrun

end Tracks

namespace Site.Does

open Machine

variable {X : Site} {p i n : Nat}

/-! ## Categories -/

/-- Testing for a builtin. -/
lemma isBuiltin (h : X.unit.code.Holds p ⟨.isBuiltin, []⟩) (v : Value) :
    X.Does p ⟨.isBuiltin, []⟩ [.value v] (pure ())
      fun _ => [.ofBool (v.category? = some .builtin)] :=
  Site.Does.mk h fun _ _ _ => rfl

/-- Testing for a closure. -/
lemma isClosure (h : X.unit.code.Holds p ⟨.isClosure, []⟩) (v : Value) :
    X.Does p ⟨.isClosure, []⟩ [.value v] (pure ())
      fun _ => [.ofBool (v.category? = some .closure)] :=
  Site.Does.mk h fun _ _ _ => rfl

/-- A builtin is one. -/
lemma castBuiltin (h : X.unit.code.Holds p ⟨.castBuiltin, []⟩) (b : Builtin) :
    X.Does p ⟨.castBuiltin, []⟩ [.value (.builtin b)] (pure ()) fun _ => [.value (.builtin b)] :=
  Site.Does.mk h fun _ _ _ => rfl

/-- A closure is one. -/
lemma castClosure (h : X.unit.code.Holds p ⟨.castClosure, []⟩) (f : FunctionUnit) (e : EnvId) :
    X.Does p ⟨.castClosure, []⟩ [.value (.closure f e)] (pure ())
      fun _ => [.value (.closure f e)] :=
  Site.Does.mk h fun _ _ _ => rfl

/-! ## Constants and native integers -/

/-- Pushing a literal. -/
lemma pushLiteral {e : Expr} (h : X.unit.code.Holds p ⟨.constant, [i]⟩)
    (hc : X.unit.constants[i]? = some (.literal e)) :
    X.Does p ⟨.constant, [i]⟩ [] (pure ()) fun _ => [.value (.ofExpr e)] :=
  Site.Does.mk h fun rest S s => by
    simp only [Site.step, Machine.step, bind_apply, operand_apply h rfl, constant_apply hc]
    rfl

/-- Pushing a call as written. -/
lemma pushCall {c : Call} (h : X.unit.code.Holds p ⟨.constant, [i]⟩)
    (hc : X.unit.constants[i]? = some (.call c)) :
    X.Does p ⟨.constant, [i]⟩ [] (pure ()) fun _ => [.call c] :=
  Site.Does.mk h fun rest S s => by
    simp only [Site.step, Machine.step, bind_apply, operand_apply h rfl, constant_apply hc]
    rfl

/-- Pushing a native integer. -/
lemma pushInt {k : Int32} (h : X.unit.code.Holds p ⟨.int, [intOperand k]⟩) :
    X.Does p ⟨.int, [intOperand k]⟩ [] (pure ()) fun _ => [.int k] :=
  Site.Does.mk h fun rest S s => by
    simp only [Site.step, Machine.step, bind_apply, operand_apply h rfl,
      intOfOperand_intOperand]
    rfl

/-- Boxing. -/
lemma boxInt (h : X.unit.code.Holds p ⟨.boxInt, []⟩) (k : Int32) :
    X.Does p ⟨.boxInt, []⟩ [.int k] (pure ()) fun _ => [.value (.int k)] :=
  Site.Does.mk h fun _ _ _ => rfl

/-- Unboxing. -/
lemma unboxInt (h : X.unit.code.Holds p ⟨.unboxInt, []⟩) (v : Value) :
    X.Does p ⟨.unboxInt, []⟩ [.value v] (Eval.ofExcept (v.asInt "integer operand"))
      fun k => [.int k] :=
  Site.Does.mk h fun rest S s => by
    simp only [Site.step, Machine.step, bind_apply, List.cons_append, List.nil_append,
      popValue_cons, lift_apply]
    cases Eval.ofExcept (v.asInt "integer operand") s <;> rfl

/-- Dropping a word. -/
lemma pop (h : X.unit.code.Holds p ⟨.pop, []⟩) (w : Word) :
    X.Does p ⟨.pop, []⟩ [w] (pure ()) fun _ => [] :=
  Site.Does.mk h fun _ _ _ => rfl

/-- Repeating a word. -/
lemma dup (h : X.unit.code.Holds p ⟨.dup, []⟩) (w : Word) :
    X.Does p ⟨.dup, []⟩ [w] (pure ()) fun _ => [w, w] :=
  Site.Does.mk h fun _ _ _ => rfl

/-- The element at a position. -/
lemma elementAt (h : X.unit.code.Holds p ⟨.elementAt, []⟩) (v : Value) (k : Int32) :
    X.Does p ⟨.elementAt, []⟩ [.int k, .value v] (Eval.ofExcept (v.elementAt k))
      fun r => [.value r] :=
  Site.Does.mk h fun rest S s => by
    simp only [Site.step, Machine.step, bind_apply, List.cons_append, List.nil_append,
      popInt_cons, popValue_cons, lift_apply]
    cases Eval.ofExcept (v.elementAt k) s <;> rfl

/-- The length of a value. -/
lemma length (h : X.unit.code.Holds p ⟨.length, []⟩) (v : Value) :
    X.Does p ⟨.length, []⟩ [.value v] (Eval.ofExcept (Builtin.lengthOf v)) fun k => [.int k] :=
  Site.Does.mk h fun rest S s => by
    simp only [Site.step, Machine.step, bind_apply, List.cons_append, List.nil_append,
      popValue_cons, lift_apply]
    cases Eval.ofExcept (Builtin.lengthOf v) s <;> rfl

/-- Adding. -/
lemma addInt (h : X.unit.code.Holds p ⟨.addInt, []⟩) (k j : Int32) :
    X.Does p ⟨.addInt, []⟩ [.int j, .int k]
      (match Value.int32? (k.toInt + j.toInt) with
        | some n => pure n
        | none => Eval.fail (.primitive "for" .counterOverflow)) fun r => [.int r] :=
  Site.Does.mk h fun rest S s => by
    simp only [Site.step, Machine.step, bind_apply, List.cons_append, List.nil_append,
      popInt_cons]
    cases Value.int32? (k.toInt + j.toInt) <;> rfl

/-- Adding one. -/
lemma addOne (h : X.unit.code.Holds p ⟨.addInt, []⟩) (k : Int32) :
    X.Does p ⟨.addInt, []⟩ [.int 1, .int k] (Flow.successor k) fun r => [.int r] := addInt h k 1

/-- Comparing values. -/
lemma greaterEqual (h : X.unit.code.Holds p ⟨.greaterEqual, []⟩) (a b : Value) :
    X.Does p ⟨.greaterEqual, []⟩ [.value b, .value a] (Eval.ofExcept (a.atLeast b))
      fun t => [.value (.logical t)] := by
  rw [← atLeast_order]
  refine Site.Does.mk h fun rest S s => ?_
  have hok : ∀ y : Float, Eval.ofExcept (.ok y) s = .ok y s := fun _ => rfl
  simp only [Site.step, Machine.step, bind_apply, List.cons_append, List.nil_append,
    popValue_cons, lift_apply]
  cases b.asDouble ">=" with
  | error e => rfl
  | ok y =>
    simp only [hok, popValue_cons]
    cases a.atLeast b <;> rfl

/-- Judging a value. -/
lemma truthy (h : X.unit.code.Holds p ⟨.truthy, []⟩) (v : Value) :
    X.Does p ⟨.truthy, []⟩ [.value v] (Eval.ofExcept v.truthy) fun t => [.ofBool t] :=
  Site.Does.mk h fun rest S s => by
    simp only [Site.step, Machine.step, bind_apply, List.cons_append, List.nil_append,
      popValue_cons, lift_apply]
    cases Eval.ofExcept v.truthy s <;> rfl

/-- Making a closure. -/
lemma makeClosure {f : FunctionUnit} (h : X.unit.code.Holds p ⟨.makeClosure, [i]⟩)
    (hf : X.unit.closures[i]? = some f) (e : EnvId) :
    X.Does p ⟨.makeClosure, [i]⟩ [.env e] (pure ()) fun _ => [.value (.closure f e)] :=
  Site.Does.mk h fun rest S s => by
    simp only [Site.step, Machine.step, bind_apply, closureOperand_apply h rfl hf]
    rfl

/-! ## Variables and promises -/

/-- Looking up a variable. -/
lemma findVariable {name : Symbol} (h : X.unit.code.Holds p ⟨.findVariable, [i]⟩)
    (hc : X.unit.constants[i]? = some (.name name)) :
    X.Does p ⟨.findVariable, [i]⟩ [] (Eval.findVariable X.env name) fun v => [.value v] :=
  Site.Does.mk h fun rest S s => by
    simp only [Site.step, Machine.step, bind_apply, nameOperand_apply h rfl hc, lift_apply]
    cases Eval.findVariable X.env name s <;> rfl

/-- Setting a variable. -/
lemma setVariable {name : Symbol} (h : X.unit.code.Holds p ⟨.setVariable, [i]⟩)
    (hc : X.unit.constants[i]? = some (.name name)) (v : Value) :
    X.Does p ⟨.setVariable, [i]⟩ [.value v] (Eval.setVariable X.env name v) fun _ => [] :=
  Site.Does.mk h fun rest S s => by
    simp only [Site.step, Machine.step, bind_apply, nameOperand_apply h rfl hc, lift_apply,
      List.cons_append, List.nil_append, popValue_cons]
    cases Eval.setVariable X.env name v s <;> rfl

/-- Finding a function. -/
lemma findFunction {name : Symbol} (h : X.unit.code.Holds p ⟨.findFunction, [i]⟩)
    (hc : X.unit.constants[i]? = some (.name name)) :
    X.Does p ⟨.findFunction, [i]⟩ [] (X.host.findFunction X.env name) fun v => [.value v] :=
  Site.Does.mk h fun rest S s => by
    simp only [Site.step, Machine.step, bind_apply, nameOperand_apply h rfl hc, lift_apply]
    cases X.host.findFunction X.env name s <;> rfl

/-- Forcing a value. -/
lemma force (h : X.unit.code.Holds p ⟨.force, []⟩) (v : Value) :
    X.Does p ⟨.force, []⟩ [.value v] (X.host.force v) fun r => [.value r] :=
  Site.Does.mk h fun rest S s => by
    simp only [Site.step, Machine.step, bind_apply, List.cons_append, List.nil_append,
      popValue_cons, lift_apply]
    cases X.host.force v s <;> rfl

/-- Checking that a value can be called. -/
lemma checkFunction {c : Call} (h : X.unit.code.Holds p ⟨.checkFunction, [i]⟩)
    (hc : X.unit.constants[i]? = some (.call c)) (v : Value) :
    X.Does p ⟨.checkFunction, [i]⟩ [.value v] (X.callable c v) fun r => [.value r] :=
  Site.Does.mk h fun rest S s => by
    rw [X.callable_apply]
    simp only [Site.step, Machine.step, bind_apply, List.cons_append, List.nil_append,
      callOperand_apply h rfl hc, popValue_cons, lift_apply]
    cases X.host.force v s with
    | error e s' => rfl
    | ok r s' =>
      dsimp only
      split <;> rfl

/-- Promising a variable. -/
lemma makeVariablePromise {name : Symbol} (h : X.unit.code.Holds p ⟨.makeVariablePromise, [i]⟩)
    (hc : X.unit.constants[i]? = some (.name name)) (e : EnvId) :
    X.Does p ⟨.makeVariablePromise, [i]⟩ [.env e] (Eval.promise (.variable name e))
      fun v => [.value v] :=
  Site.Does.mk h fun rest S s => by
    simp only [Site.step, Machine.step, bind_apply, nameOperand_apply h rfl hc, lift_apply,
      List.cons_append, List.nil_append, popEnv_cons]
    cases Eval.promise (.variable name e) s <;> rfl

/-- Promising a late argument. -/
lemma makeThunk {t : CodeUnit} (h : X.unit.code.Holds p ⟨.makeThunk, [i]⟩)
    (ht : X.unit.thunks[i]? = some t) (e : EnvId) :
    X.Does p ⟨.makeThunk, [i]⟩ [.env e, .context] (Eval.promise (.compiled t e))
      fun v => [.value v] :=
  Site.Does.mk h fun rest S s => by
    simp only [Site.step, Machine.step, bind_apply, thunkOperand_apply h rfl ht, lift_apply,
      List.cons_append, List.nil_append, popEnv_cons, popContext_cons]
    cases Eval.promise (.compiled t e) s <;> rfl

/-- Evaluating a late argument. -/
lemma evalThunk {t : CodeUnit} (h : X.unit.code.Holds p ⟨.evalThunk, [i]⟩)
    (ht : X.unit.thunks[i]? = some t) (e : EnvId) :
    X.Does p ⟨.evalThunk, [i]⟩ [.env e, .context] (X.host.executeNested X.limit t e)
      fun v => [.value v] :=
  Site.Does.mk h fun rest S s => by
    simp only [Site.step, Machine.step, bind_apply, thunkOperand_apply h rfl ht, lift_apply,
      List.cons_append, List.nil_append, popEnv_cons, popContext_cons]
    cases X.host.executeNested X.limit t e s <;> rfl

/-- Looking up the caller's `...`. -/
lemma loadEllipsis (h : X.unit.code.Holds p ⟨.loadEllipsis, []⟩) :
    X.Does p ⟨.loadEllipsis, []⟩ [] (Eval.findDots X.env) fun dots => [.value (.dots dots)] :=
  Site.Does.mk h fun rest S s => by
    simp only [Site.step, Machine.step, bind_apply, lift_apply]
    cases Eval.findDots X.env s <;> rfl

/-! ## Arguments -/

/-- An empty list of arguments. -/
lemma newArgList (h : X.unit.code.Holds p ⟨.newArgList, []⟩) :
    X.Does p ⟨.newArgList, []⟩ [] (pure ()) fun _ => [.args #[]] :=
  Site.Does.mk h fun _ _ _ => rfl

/-- Appending an argument without a name. -/
lemma argAdd (h : X.unit.code.Holds p ⟨.argAdd, []⟩) (v : Value) (as : ArgList) :
    X.Does p ⟨.argAdd, []⟩ [.value v, .args as.toArray] (pure ())
      fun _ => [.args (as ++ [Arg.mk none v]).toArray] :=
  Site.Does.mk h fun rest S s => by
    rw [← List.push_toArray]
    rfl

/-- Appending an argument with a name. -/
lemma argAddNamed {name : Symbol} (h : X.unit.code.Holds p ⟨.argAddNamed, [i]⟩)
    (hc : X.unit.constants[i]? = some (.name name)) (v : Value) (as : ArgList) :
    X.Does p ⟨.argAddNamed, [i]⟩ [.value v, .args as.toArray] (pure ())
      fun _ => [.args (as ++ [Arg.mk (some name) v]).toArray] :=
  Site.Does.mk h fun rest S s => by
    rw [← List.push_toArray]
    simp only [Site.step, Machine.step, bind_apply, nameOperand_apply h rfl hc]
    rfl

/-- Appending the caller's `...`. -/
lemma argAddAll (h : X.unit.code.Holds p ⟨.argAddAll, []⟩) (dots as : ArgList) :
    X.Does p ⟨.argAddAll, []⟩ [.value (.dots dots), .args as.toArray] (pure ())
      fun _ => [.args (as ++ dots).toArray] :=
  Site.Does.mk h fun rest S s => by
    rw [← List.append_toArray]
    rfl

/-- An array of names. -/
lemma newNames (h : X.unit.code.Holds p ⟨.newNames, [n]⟩) :
    X.Does p ⟨.newNames, [n]⟩ [] (pure ()) fun _ => [.names (List.replicate n none).toArray] :=
  Site.Does.mk h fun rest S s => by
    rw [List.toArray_replicate]
    simp only [Site.step, Machine.step, bind_apply, operand_apply h rfl]
    rfl

/-- Filling in a name. -/
lemma nameAt {name : Symbol} (h : X.unit.code.Holds p ⟨.nameAt, [n, i]⟩)
    (hc : X.unit.constants[i]? = some (.name name)) {ns : List (Option Symbol)}
    (hn : n < ns.length) :
    X.Does p ⟨.nameAt, [n, i]⟩ [.names ns.toArray] (pure ())
      fun _ => [.names (ns.set n (some name)).toArray] :=
  Site.Does.mk h fun rest S s => by
    have ho : ∀ st : List Word,
        operand X.unit 2 0 ⟨p, st, S⟩ s = .ok (n, ⟨p, st, S⟩) s ∧
          operand X.unit 2 2 ⟨p, st, S⟩ s = .ok (i, ⟨p, st, S⟩) s :=
      fun _ => operand_apply_pair h rfl
    rw [← List.setIfInBounds_toArray]
    simp only [Site.step, Machine.step, nameOperand, bind_apply, (ho _).1, (ho _).2,
      constant_apply hc, pure_apply, List.cons_append, List.nil_append, popNames_cons,
      List.size_toArray, if_pos hn]
    rfl

/-- Splicing names. -/
lemma spliceNames (h : X.unit.code.Holds p ⟨.spliceNames, [n]⟩) (dots : ArgList)
    {ns : List (Option Symbol)} (hn : n < ns.length) :
    X.Does p ⟨.spliceNames, [n]⟩ [.value (.dots dots), .names ns.toArray] (pure ())
      fun _ => [.names (Flow.splicedAt ns n (dots.map Arg.name)).toArray] :=
  Site.Does.mk h fun rest S s => by
    rw [← spliced_toArray]
    simp only [Site.step, Machine.step, bind_apply, operand_apply h rfl, List.cons_append,
      List.nil_append, popDots_cons, popNames_cons, List.size_toArray, if_pos hn]
    rfl

/-- An array of values. -/
lemma newValues (h : X.unit.code.Holds p ⟨.newValues, [n]⟩) :
    X.Does p ⟨.newValues, [n]⟩ [] (pure ()) fun _ => [.values (List.replicate n .null).toArray] :=
  Site.Does.mk h fun rest S s => by
    rw [List.toArray_replicate]
    simp only [Site.step, Machine.step, bind_apply, operand_apply h rfl]
    rfl

/-- Filling in a value. -/
lemma valueAt (h : X.unit.code.Holds p ⟨.valueAt, [n]⟩) (v : Value) {vs : List Value}
    (hn : n < vs.length) :
    X.Does p ⟨.valueAt, [n]⟩ [.value v, .values vs.toArray] (pure ())
      fun _ => [.values (vs.set n v).toArray] :=
  Site.Does.mk h fun rest S s => by
    rw [← List.setIfInBounds_toArray]
    simp only [Site.step, Machine.step, bind_apply, operand_apply h rfl, List.cons_append,
      List.nil_append, popValue_cons, popValues_cons, List.size_toArray, if_pos hn]
    rfl

/-- Splicing values. -/
lemma spliceValues (h : X.unit.code.Holds p ⟨.spliceValues, [n]⟩) (dots : ArgList)
    {vs : List Value} (hn : n < vs.length) :
    X.Does p ⟨.spliceValues, [n]⟩ [.value (.dots dots), .values vs.toArray] (dots.mapM fun d => X.host.force d.value)
      fun entries => [.values (Flow.splicedAt vs n entries).toArray] :=
  Site.Does.mk h fun rest S s => by
    simp only [← spliced_toArray]
    simp only [Site.step, Machine.step, bind_apply, operand_apply h rfl, List.cons_append,
      List.nil_append, popDots_cons, popValues_cons, List.size_toArray, if_pos hn, mapM_lift]
    cases (dots.mapM fun d => X.host.force d.value : Eval (List Value)) s <;> rfl

/-! ## Calls -/

/-- Calling a special form. -/
lemma applySpecial (h : X.unit.code.Holds p ⟨.applySpecial, []⟩) (c : Call) (e : EnvId)
    (f : Special) :
    X.Does p ⟨.applySpecial, []⟩ [.call c, .env e, .context, .value (.special f)] (f.invoke X.host e c)
      fun v => [.value v] :=
  Site.Does.mk h fun rest S s => by
    simp only [Site.step, Machine.step, Machine.applySpecial, bind_apply, List.cons_append,
      List.nil_append, popCall_cons, popEnv_cons, popContext_cons, popValue_cons, lift_apply]
    cases f.invoke X.host e c s <;> rfl

/-- Calling a closure. -/
lemma applyClosure (h : X.unit.code.Holds p ⟨.applyClosure, []⟩) (c : Call)
    (as : ArgList) (unit : FunctionUnit) (e : EnvId) :
    X.Does p ⟨.applyClosure, []⟩ [.args as.toArray, .call c, .context, .value (.closure unit e)] (CallByNeed.applyClosure X.limit X.host unit e c as)
      fun v => [.value v] :=
  Site.Does.mk h fun rest S s => by
    simp only [Site.step, Machine.step, Machine.applyClosure, bind_apply, List.cons_append,
      List.nil_append, popCall_cons, popArgs_cons, popContext_cons, popValue_cons, lift_apply]
    cases CallByNeed.applyClosure X.limit X.host unit e c as s <;> rfl

/-- Calling a builtin. -/
lemma applyBuiltin (h : X.unit.code.Holds p ⟨.applyBuiltin, []⟩) (c : Call) (e : EnvId)
    (ns : List (Option Symbol)) (vs : List Value) (b : Builtin) :
    X.Does p ⟨.applyBuiltin, []⟩
      [.values vs.toArray, .names ns.toArray, .call c, .env e, .context, .value (.builtin b)]
      (Flow.ofResult (b.invoke c ns vs)) fun v => [.value v] :=
  Site.Does.mk h fun rest S s => by
    simp only [Site.step, Machine.step, Machine.applyBuiltin, popBuiltinCall, bind_apply,
      List.cons_append, List.nil_append, popCall_cons, popValues_cons, popNames_cons,
      popEnv_cons, popContext_cons, popValue_cons, pure_apply, invoke_apply]
    cases Flow.ofResult (b.invoke c ns vs) s <;> rfl

/-- Calling a builtin known by name. -/
lemma callPrimitive {name : Symbol} {b : Builtin} (h : X.unit.code.Holds p ⟨.callPrimitive, [i]⟩)
    (hc : X.unit.constants[i]? = some (.primitive name)) (hb : Builtin.ofName? name.name = some b)
    (c : Call) (e : EnvId) (ns : List (Option Symbol)) (vs : List Value) :
    X.Does p ⟨.callPrimitive, [i]⟩ [.values vs.toArray, .names ns.toArray, .call c, .env e, .context] (Flow.ofResult (b.invoke c ns vs))
      fun v => [.value v] :=
  Site.Does.mk h fun rest S s => by
    simp only [Site.step, Machine.step, nameOperand, Machine.callPrimitive, popBuiltinCall,
      bind_apply, operand_apply h rfl, constant_apply hc, hb,
      List.cons_append, List.nil_append, popCall_cons, popValues_cons, popNames_cons,
      popEnv_cons, popContext_cons, pure_apply, invoke_apply]
    cases Flow.ofResult (b.invoke c ns vs) s <;> rfl

end Site.Does

end CallByNeed
