import CallByNeed.Proofs.Discipline.Runs
import CallByNeed.Proofs.Plain.Evaluations

/-!
# Orderly machines

What a machine has on its stack and in its slots is ordinary (`Machine.Calm`), but for the arguments
bound to `...`, which stand in the work slot, and for what an instruction has pushed that the next one
takes (`Machine.Composed`). Executing an instruction of compiled code is orderly and leaves such a
machine (`Conducts.step`), and so is executing a unit (`Conducts.run`).
-/

namespace CallByNeed

variable {α β : Type} {limit : Nat} {s₀ s t : Store} {r : Rank} {C : Contract} {env : EnvId}
  {size : ℕ∞} {fs : Frames}

/-! ## Operands -/

section

variable {p : Nat} {u : CodeUnit}

/-- A step that only looks at the unit: it stops or leaves machine and store alone. -/
def Peeks (p : Nat) (act : Stepping α) (P : α → Prop) : Prop :=
  ∀ m : Machine, m.position = p → ∀ s, (∃ e, act m s = .error e s) ∨
    ∃ a, P a ∧ act m s = .ok (a, m) s

namespace Peeks

variable {P : α → Prop} {P' : β → Prop} {act : Stepping α}

protected lemma pure {a : α} (h : P a) : Peeks p (Pure.pure a) P := fun _ _ _ => .inr ⟨a, h, rfl⟩

lemma defect (fault : InternalFault) : Peeks p (Machine.defect fault : Stepping α) P :=
  fun _ _ _ => .inl ⟨_, rfl⟩

protected lemma bind {next : α → Stepping β} (h : Peeks p act P)
    (h' : ∀ a, P a → Peeks p (next a) P') : Peeks p (act >>= next) P' := by
  intro m hp s
  rw [Machine.bind_apply]
  rcases h m hp s with ⟨e, he⟩ | ⟨a, ha, hr⟩
  · rw [he]
    exact .inl ⟨e, rfl⟩
  · rw [hr]
    exact h' a ha m hp s

/-- An operand of the instruction. -/
lemma operand (u : CodeUnit) (width skip : Nat) :
    Peeks p (Machine.operand u width skip) fun n => u.code.operand? p width skip = some n := by
  rintro m rfl s
  simp only [Machine.operand_read]
  cases hn : u.code.operand? m.position width skip with
  | none => exact .inl ⟨_, rfl⟩
  | some n => exact .inr ⟨n, rfl, rfl⟩

lemma constant (u : CodeUnit) (i : Nat) :
    Peeks p (Machine.constant u i) fun c => u.constants[i]? = some c := by
  unfold Machine.constant
  cases u.constants[i]? with
  | none => exact defect _
  | some c => exact .pure rfl

/-- The name that an operand refers to. -/
lemma nameOperand (u : CodeUnit) (skip : Nat) :
    Peeks p (Machine.nameOperand u skip) fun name => ∃ n,
      u.code.operand? p 2 skip = some n ∧
        (u.constants[n]? = some (.name name) ∨ u.constants[n]? = some (.primitive name)) := by
  refine (operand u 2 skip).bind fun n hn => (constant u n).bind fun c hc => ?_
  cases c with
  | name s => exact .pure ⟨n, hn, .inl hc⟩
  | primitive s => exact .pure ⟨n, hn, .inr hc⟩
  | _ => exact defect _

lemma callOperand (u : CodeUnit) : Peeks p (Machine.callOperand u) fun _ => True := by
  refine (operand u 2 0).bind fun n _ => (constant u n).bind fun c _ => ?_
  cases c with
  | call c => exact .pure trivial
  | _ => exact defect _

lemma thunkOperand (hu : u.Compiled) : Peeks p (Machine.thunkOperand u) fun d => d.Compiled := by
  refine (operand u 2 0).bind fun n _ => ?_
  cases hd : u.thunks[n]? with
  | none => exact defect _
  | some d => exact .pure (hu.thunk (List.mem_of_getElem? hd))

lemma closureOperand (hu : u.Compiled) :
    Peeks p (Machine.closureOperand u) fun f => f.Compiled := by
  refine (operand u 2 0).bind fun n _ => ?_
  cases hf : u.closures[n]? with
  | none => exact defect _
  | some f => exact .pure (hu.closure (List.mem_of_getElem? hf))

end Peeks

/-- The operand of an instruction that has one. -/
lemma Bytes.Holds.operands_eq {code : Bytes} {width n : Nat} {op : Opcode} {ns : List Nat}
    (h : code.Holds p ⟨op, ns⟩) (hw : op.widths = [width])
    (hn : code.operand? p width 0 = some n) : ns = [n] := by
  have ho := h.operands
  rw [operand?, Nat.add_zero] at hn
  simp only [hw, readOperands?, hn] at ho
  exact (Option.some.inj ho).symm

lemma Machine.mem_of_mem_spliced {as : Array α} {n : Nat} {entries : List α} {a : α}
    (h : a ∈ (Machine.spliced as n entries).toList) : a ∈ as.toList ∨ a ∈ entries := by
  unfold Machine.spliced at h
  simp only [Array.toList_append, Array.toList_extract, List.extract_eq_take_drop, List.mem_append,
    List.drop_zero] at h
  rcases h with (h | h) | h
  · exact .inl (List.mem_of_mem_take h)
  · exact .inr h
  · exact .inl (List.mem_of_mem_drop (List.mem_of_mem_take h))

end

/-! ## Machines -/

variable [Inherited]

/-- The word is one that any instruction may meet. -/
def Word.Calm (s : Store) (env : EnvId) : Word → Prop
  | .value v => v.PlainIn s
  | .values vs => ∀ v ∈ vs.toList, v.PlainIn s
  | .args as => ArgList.LazyIn as.toList s
  | .env e => e = env
  | .empty | .int _ | .context | .call _ | .names _ => True

/-- The word is what is bound to `...` in an environment. -/
def Word.IsDots (s : Store) (env : EnvId) (w : Word) : Prop :=
  ∃ args, w = .value (.dots args) ∧ ArgList.Lazy s env args

/-- What the machine has on its stack is calm, and so is what it has in its slots, but for the work
slot. -/
structure Machine.Calm (s : Store) (env : EnvId) (m : Machine) : Prop where
  stack : ∀ w ∈ m.stack, w.Calm s env
  slots : ∀ (i : Nat) (w : Word), m.slots[i]? = some w → w.Calm s env ∨ i = workSlot ∧ w.IsDots s env

lemma Word.Calm.changes (h : s.Changes fs t) (hs : s.Proper) {w : Word} (hw : w.Calm s env) :
    w.Calm t env := by
  cases w with
  | value v => exact h.plainIn hs hw
  | values vs => exact fun v hv => h.plainIn hs (hw v hv)
  | args as => exact ArgList.LazyIn.changes h hs hw
  | env e => exact hw
  | empty | int n | context | call c | names ns => trivial

lemma Word.IsDots.changes (h : s.Changes fs t) (hs : s.Proper) {w : Word} (hw : w.IsDots s env) :
    w.IsDots t env := by
  obtain ⟨args, rfl, hargs⟩ := hw
  exact ⟨args, rfl, h.lazy hs hargs⟩

lemma Machine.Calm.changes (h : s.Changes fs t) (hs : s.Proper) {m : Machine} (hm : m.Calm s env) :
    m.Calm t env where
  stack w hw := (hm.stack w hw).changes h hs
  slots i w hw := (hm.slots i w hw).imp (.changes h hs) fun hw => ⟨hw.1, hw.2.changes h hs⟩

/-- One more argument. -/
lemma ArgList.LazyIn.push {as : Array (Arg Value)} {v : Value} (h : ArgList.LazyIn as.toList s)
    (name : Option Symbol) (hv : v.Lazy s s.environments.size) :
    ArgList.LazyIn (as.push ⟨name, v⟩).toList s := by
  rw [Array.toList_push]
  exact List.forall_mem_append.2 ⟨h, List.forall_mem_singleton.2 hv⟩

/-! ## Parts of instructions -/

/-- A step on any calm machine at an offset leaves a calm machine there. -/
def Works (C : Contract) (env : EnvId) (p : Nat) (s : Store) (act : Host → Stepping α)
    (Q : α → Store → Prop) : Prop :=
  ∀ m : Machine, m.position = p → m.Calm s env →
    Conducts C s (fun H => act H m) fun r t => r.2.position = p ∧ r.2.Calm t env ∧ Q r.1 t

/-- So does a step that leaves the store alone. -/
def Reads (C : Contract) (env : EnvId) (p : Nat) (s : Store) (act : Stepping α) (P : α → Prop) :
    Prop := Works C env p s (fun _ => act) fun a t => t = s ∧ P a

variable {p : Nat} {Q : α → Store → Prop} {R : β → Store → Prop} {u : CodeUnit}

namespace Works

protected lemma pure {a : α} (h : Q a s) : Works C env p s (fun _ => Pure.pure a) Q :=
  fun _ hp hm => .pure ⟨hp, hm, h⟩

lemma throw (e : Halt) : Works C env p s (fun _ => (MonadExcept.throw e : Stepping α)) Q :=
  fun _ _ _ => .throw e

lemma fail (e : EvalError) : Works C env p s (fun _ => liftM (Eval.fail e : Eval α)) Q :=
  fun _ _ _ => .fail e

lemma defect (fault : InternalFault) :
    Works C env p s (fun _ => (Machine.defect fault : Stepping α)) Q := fun _ _ _ => .fail _

/-- An evaluation in a step. -/
lemma lift {act : Host → Eval α} (hs : s.Proper) (h : Conducts C s act Q) :
    Works C env p s (fun H => liftM (act H)) Q := fun _ hp hm =>
  h.bind fun _ _ _ ht ha => .pure ⟨hp, hm.changes ht hs, ha⟩

protected lemma bind {act : Host → Stepping α} {next : Host → α → Stepping β}
    (h : Works C env p s act Q)
    (h' : ∀ a t fs, s.Changes fs t → Q a t → Works C env p t (fun H => next H a) R) :
    Works C env p s (fun H => act H >>= next H) R := fun m hp hm =>
  (h m hp hm).bind fun r t fs ht ⟨hp, hm, ha⟩ => h' r.1 t fs ht ha r.2 hp hm

end Works

namespace Peeks

variable {P : α → Prop} {act : Stepping α}

/-- What is done with the same machine afterwards. -/
lemma andThen {next : Host → α → Stepping β} {R' : β × Machine → Store → Prop}
    (h : Peeks p act P) {m : Machine} (hp : m.position = p)
    (h' : ∀ a, P a → Conducts C s (fun H => next H a m) R') :
    Conducts C s (fun H => (act >>= next H) m) R' := by
  rcases h m hp s with ⟨e, he⟩ | ⟨a, ha, hr⟩
  · refine Inquiry.of_eq (Conducts.throw e) fun H => (Machine.bind_apply _ _ _ _).trans ?_
    rw [he]
    rfl
  · refine Inquiry.of_eq (h' a ha) fun H => (Machine.bind_apply _ _ _ _).trans ?_
    rw [hr]

lemma works {next : Host → α → Stepping β} (h : Peeks p act P)
    (h' : ∀ a, P a → Works C env p s (fun H => next H a) R) :
    Works C env p s (fun H => act >>= next H) R := fun m hp hm =>
  h.andThen hp fun a ha => h' a ha m hp hm

end Peeks

namespace Reads

variable {P : α → Prop} {P' : β → Prop} {act : Stepping α}

protected lemma pure {a : α} (h : P a) : Reads C env p s (Pure.pure a) P := Works.pure ⟨rfl, h⟩

/-- What is done afterwards begins in the same store. -/
lemma works {next : Host → α → Stepping β} (h : Reads C env p s act P)
    (h' : ∀ a, P a → Works C env p s (fun H => next H a) R) :
    Works C env p s (fun H => act >>= next H) R :=
  Works.bind h fun a t _ _ ⟨ht, ha⟩ => by
    subst ht
    exact h' a ha

protected lemma bind {next : α → Stepping β} (h : Reads C env p s act P)
    (h' : ∀ a, P a → Reads C env p s (next a) P') : Reads C env p s (act >>= next) P' :=
  h.works h'

/-! ### The stack -/

lemma pop : Reads C env p s Machine.pop fun w => w.Calm s env := by
  rintro ⟨_, stack, slots⟩ rfl hm
  cases stack with
  | nil => exact .fail _
  | cons w stack =>
    obtain ⟨hw, hstack⟩ := List.forall_mem_cons.1 hm.stack
    exact .pure ⟨rfl, ⟨hstack, hm.slots⟩, rfl, hw⟩

lemma push {w : Word} (hw : w.Calm s env) : Reads C env p s (Machine.push w) fun _ => True :=
  fun _ hp hm => .pure ⟨hp, ⟨List.forall_mem_cons.2 ⟨hw, hm.stack⟩, hm.slots⟩, rfl, trivial⟩

lemma top : Reads C env p s Machine.top fun w => w.Calm s env := by
  rintro ⟨_, stack, slots⟩ rfl hm
  cases stack with
  | nil => exact .fail _
  | cons w stack => exact .pure ⟨rfl, hm, rfl, hm.stack w List.mem_cons_self⟩

lemma popValue : Reads C env p s Machine.popValue fun v => v.PlainIn s :=
  pop.bind fun w hw => by
    cases w with
    | value v => exact .pure hw
    | _ => exact Works.defect _

lemma popInt : Reads C env p s Machine.popInt fun _ => True :=
  pop.bind fun w _ => by
    cases w with
    | int n => exact .pure trivial
    | _ => exact Works.defect _

lemma popContext : Reads C env p s Machine.popContext fun _ => True :=
  pop.bind fun w _ => by
    cases w with
    | context => exact .pure trivial
    | _ => exact Works.defect _

lemma popEnv : Reads C env p s Machine.popEnv fun e => e = env :=
  pop.bind fun w hw => by
    cases w with
    | env e => exact .pure hw
    | _ => exact Works.defect _

lemma popCall : Reads C env p s Machine.popCall fun _ => True :=
  pop.bind fun w _ => by
    cases w with
    | call c => exact .pure trivial
    | _ => exact Works.defect _

lemma popNames : Reads C env p s Machine.popNames fun _ => True :=
  pop.bind fun w _ => by
    cases w with
    | names ns => exact .pure trivial
    | _ => exact Works.defect _

lemma popValues : Reads C env p s Machine.popValues fun vs => ∀ v ∈ vs.toList, v.PlainIn s :=
  pop.bind fun w hw => by
    cases w with
    | values vs => exact .pure hw
    | _ => exact Works.defect _

lemma popArgs : Reads C env p s Machine.popArgs fun as => ArgList.LazyIn as.toList s :=
  pop.bind fun w hw => by
    cases w with
    | args as => exact .pure hw
    | _ => exact Works.defect _

/-- No calm word is what is bound to `...`. -/
lemma popDots : Reads C env p s Machine.popDots fun _ => False :=
  popValue.bind fun v hv => by
    cases v with
    | dots args => exact hv.elim
    | _ => exact Works.fail _

/-! ### Slots -/

lemma slot (i : Nat) : Reads C env p s (Machine.slot i) fun w =>
    w.Calm s env ∨ i = workSlot ∧ w.IsDots s env := by
  intro m hp hm
  simp only [Machine.slot_read]
  cases hw : m.slots[i]? with
  | none => exact .fail _
  | some w => exact .pure ⟨hp, hm, rfl, hm.slots i w hw⟩

lemma setSlot (i : Nat) {w : Word} (hw : w.Calm s env ∨ i = workSlot ∧ w.IsDots s env) :
    Reads C env p s (Machine.setSlot i w) fun _ => True := by
  refine (slot i).bind fun _ _ => fun m hp hm => .pure ⟨hp, ⟨hm.stack, ?_⟩, rfl, trivial⟩
  intro j w' hw'
  dsimp only at hw'
  rw [Array.getElem?_setIfInBounds] at hw'
  split at hw'
  · rename_i hij
    subst hij
    split at hw'
    · cases hw'
      exact hw
    · cases hw'
  · exact hm.slots j w' hw'

/-! ### Builtins -/

lemma popBuiltinCall :
    Reads C env p s Machine.popBuiltinCall fun r => ∀ v ∈ r.2.2, v.PlainIn s :=
  popValues.bind fun _ hvs => popNames.bind fun _ _ => popCall.bind fun _ _ =>
    popEnv.bind fun _ _ => popContext.bind fun _ _ => .pure hvs

lemma invoke {b : Builtin} {call : Call} {ns : List (Option Symbol)} {vs : List Value}
    (hvs : ∀ v ∈ vs, v.PlainIn s) :
    Reads C env p s (Machine.invoke b call ns vs) fun v => v.PlainIn s := by
  unfold Machine.invoke
  cases hv : b.invoke call ns vs with
  | ok v => exact .pure (Builtin.plain_of_invoke hvs hv)
  | error e => exact Works.throw e

lemma applyBuiltin : Reads C env p s Machine.applyBuiltin fun v => v.PlainIn s := by
  refine popBuiltinCall.bind fun r hvs => popValue.bind fun v hv => ?_
  cases v with
  | builtin b => exact invoke hvs
  | _ => exact Works.defect _

lemma callPrimitive (name : Symbol) :
    Reads C env p s (Machine.callPrimitive name) fun v => v.PlainIn s := by
  unfold Machine.callPrimitive
  cases Builtin.ofName? name.name with
  | none => exact Works.defect _
  | some b => exact popBuiltinCall.bind fun r hvs => invoke hvs

end Reads

/-! ### Closures and special forms -/

namespace Works

lemma applySpecial (h : Room limit s₀ r env ⊤ s) :
    Works (.orderly limit s₀ r) env p s (fun H => Machine.applySpecial H) Value.PlainIn := by
  refine Reads.popCall.works fun call _ => Reads.popEnv.works fun e he => ?_
  subst he
  refine Reads.popContext.works fun _ _ => Reads.popValue.works fun v _ => ?_
  cases v with
  | special f => exact lift h.proper (.invoke h (fun a _ => ENat.natCast_lt_top _) f)
  | _ => exact defect _

lemma applyClosure (h : Room limit s₀ r env ⊤ s) :
    Works (.orderly limit s₀ r) env p s (fun H => Machine.applyClosure limit H) Value.PlainIn := by
  refine Reads.popArgs.works fun args hargs => Reads.popCall.works fun call _ =>
    Reads.popContext.works fun _ _ => Reads.popValue.works fun v hv => ?_
  cases v with
  | closure f closureEnv => exact lift h.proper (.applyClosure h hv.1 hv.2 hargs)
  | _ => exact defect _

end Works

/-! ## Instructions -/

/-- Where execution goes on is a target of the instruction, or it ends with an ordinary value. -/
def Machine.Transfer.Orderly (u : CodeUnit) (p : Nat) (op : Opcode) :
    Machine.Transfer → Store → Prop
  | .next, _ => True
  | .jump target, _ => op.isJump = true ∧ u.code.operand? p 2 0 = some target
  | .ret v, s => v.PlainIn s

namespace Works

variable {op : Opcode}

/-- Pushing a word ends an instruction. -/
lemma push {w : Word} (hw : w.Calm s env) :
    Works C env p s (fun _ => do Machine.push w; return Machine.Transfer.next)
      (Machine.Transfer.Orderly u p op) :=
  (Reads.push hw).works fun _ _ => .pure trivial

lemma jumpIf (hop : op.isJump = true) (c : Bool) :
    Works C env p s (fun _ => Machine.jumpIf u c) (Machine.Transfer.Orderly u p op) := by
  unfold Machine.jumpIf
  cases c with
  | false => exact .pure trivial
  | true => exact (Peeks.operand u 2 0).works fun t ht => .pure ⟨hop, ht⟩

/-- Pushing the value of an evaluation ends an instruction. -/
lemma pushValue {act : Host → Stepping Value} (h : Works C env p s act Value.PlainIn) :
    Works C env p s (fun H => do Machine.pushValue (← act H); return Machine.Transfer.next)
      (Machine.Transfer.Orderly u p op) :=
  h.bind fun _ _ _ _ hv => push hv

/-- An instruction that pushes what is ordinary, executed on a calm machine. -/
theorem step_quiet (h : Room limit s₀ r env ⊤ s) (hu : u.Compiled) {i : Instruction}
    (hi : u.code.Holds p i) (hquiet : i.Quiet) :
    Works (.orderly limit s₀ r) env p s (fun H => Machine.step limit H u env i.op)
      (Machine.Transfer.Orderly u p i.op) := by
  obtain ⟨op, operands⟩ := i
  cases op with
  | constant =>
    refine (Peeks.operand u 2 0).works fun n _ => (Peeks.constant u n).works fun c _ => ?_
    cases c with
    | literal e => exact push (Value.plain_ofExpr e)
    | call c => exact push trivial
    | _ => exact defect _
  | int => exact (Peeks.operand u 4 0).works fun n _ => push trivial
  | load =>
    refine (Peeks.operand u 1 0).works fun n hn => (Reads.slot n).works fun w hw => ?_
    have hw : w.Calm s env := by
      refine hw.resolve_right fun hwork => hquiet.2 ?_
      rw [hi.operands_eq rfl hn, hwork.1]
    cases w with
    | empty => exact defect _
    | _ => exact push hw
  | store =>
    exact Reads.pop.works fun w hw => (Peeks.operand u 1 0).works fun n _ =>
      (Reads.setSlot n (.inl hw)).works fun _ _ => .pure trivial
  | loadInt =>
    refine (Peeks.operand u 1 0).works fun n _ => (Reads.slot n).works fun w _ => ?_
    cases w with
    | int k => exact push trivial
    | _ => exact defect _
  | storeInt =>
    exact Reads.popInt.works fun k _ => (Peeks.operand u 1 0).works fun n _ =>
      (Reads.setSlot (w := .int k) n (.inl trivial)).works fun _ _ => .pure trivial
  | incLocal =>
    refine (Peeks.operand u 1 0).works fun n _ => (Reads.slot n).works fun w _ => ?_
    cases w with
    | int k =>
      dsimp only
      cases Value.int32? (k.toInt + 1) with
      | none => exact fail _
      | some k =>
        exact (Reads.setSlot (w := .int k) n (.inl trivial)).works fun _ _ => .pure trivial
    | _ => exact defect _
  | dup => exact Reads.top.works fun w hw => push hw
  | pop => exact Reads.pop.works fun _ _ => .pure trivial
  | jump => exact (Peeks.operand u 2 0).works fun t ht => .pure ⟨rfl, ht⟩
  | jumpIfZero | jumpIfNonZero => exact Reads.popInt.works fun _ _ => jumpIf rfl _
  | jumpIfIntLess => exact Reads.popInt.works fun _ _ => Reads.popInt.works fun _ _ => jumpIf rfl _
  | findVariable => exact absurd rfl hquiet.1.1
  | makeVariablePromise => exact absurd rfl hquiet.1.2.1
  | makeThunk => exact absurd rfl hquiet.1.2.2.1
  | loadEllipsis => exact absurd rfl hquiet.1.2.2.2
  | findFunction =>
    exact (Peeks.nameOperand u 0).works fun name _ =>
      pushValue (lift h.proper (.findFunction h ENat.top_pos))
  | setVariable =>
    exact (Peeks.nameOperand u 0).works fun name _ => Reads.popValue.works fun v hv =>
      (lift h.proper (.setVariable hv)).bind fun _ _ _ _ _ => .pure trivial
  | force =>
    exact Reads.popValue.works fun v hv =>
      pushValue (lift h.proper (.force h ENat.top_pos (.plain hv)))
  | checkFunction =>
    refine (Peeks.callOperand u).works fun call _ => Reads.popValue.works fun v hv =>
      (lift h.proper (.force h ENat.top_pos (.plain hv))).bind fun w t fs ht hw => ?_
    dsimp only
    split
    · exact push hw
    · exact fail _
  | isBuiltin | isClosure => exact Reads.popValue.works fun v _ => push trivial
  | castBuiltin =>
    refine Reads.top.works fun w _ => ?_
    split
    · exact .pure trivial
    · exact defect _
  | castClosure =>
    refine Reads.top.works fun w _ => ?_
    split
    · exact .pure trivial
    · exact defect _
  | applySpecial => exact pushValue (applySpecial h)
  | newArgList => exact push fun _ ha => absurd ha List.not_mem_nil
  | argAdd =>
    exact Reads.popValue.works fun v hv => Reads.popArgs.works fun as has =>
      push (has.push none (.plain hv))
  | argAddNamed =>
    exact (Peeks.nameOperand u 0).works fun name _ => Reads.popValue.works fun v hv =>
      Reads.popArgs.works fun as has => push (has.push (some name) (.plain hv))
  | argAddAll => exact Reads.popDots.works fun dots hdots => hdots.elim
  | applyClosure => exact pushValue (applyClosure h)
  | evalThunk =>
    exact (Peeks.thunkOperand hu).works fun d hd => Reads.popEnv.works fun e he =>
      Reads.popContext.works fun _ _ =>
        pushValue (lift h.proper (.executeNested h hd (he ▸ h.inside)))
  | newNames => exact (Peeks.operand u 2 0).works fun n _ => push trivial
  | nameAt =>
    refine (Peeks.operand u 2 0).works fun n _ => (Peeks.nameOperand u 2).works fun name _ =>
      Reads.popNames.works fun ns _ => ?_
    split
    · exact push trivial
    · exact defect _
  | spliceNames =>
    exact (Peeks.operand u 2 0).works fun n _ => Reads.popDots.works fun dots hdots => hdots.elim
  | newValues =>
    refine (Peeks.operand u 2 0).works fun n _ => push fun v hv => ?_
    rw [Array.toList_replicate] at hv
    rw [List.eq_of_mem_replicate hv]
    trivial
  | valueAt =>
    refine (Peeks.operand u 2 0).works fun n _ => Reads.popValue.works fun v hv =>
      Reads.popValues.works fun vs hvs => ?_
    split
    · refine push fun w hw => ?_
      rw [Array.toList_setIfInBounds] at hw
      rcases List.mem_or_eq_of_mem_set hw with hw | rfl
      · exact hvs w hw
      · exact hv
    · exact defect _
  | spliceValues =>
    exact (Peeks.operand u 2 0).works fun n _ => Reads.popDots.works fun dots hdots => hdots.elim
  | applyBuiltin => exact Reads.applyBuiltin.works fun v hv => push hv
  | callPrimitive =>
    exact (Peeks.nameOperand u 0).works fun name _ =>
      (Reads.callPrimitive name).works fun v hv => push hv
  | elementAt =>
    exact Reads.popInt.works fun k _ => Reads.popValue.works fun v hv =>
      pushValue (lift h.proper (.ofExcept fun w hw => hv.elementAt hw))
  | length =>
    exact Reads.popValue.works fun v _ => (lift (Q := fun _ _ => True) h.proper
      (.ofExcept fun _ _ => trivial)).bind fun n _ _ _ _ => push trivial
  | addInt =>
    refine Reads.popInt.works fun b _ => Reads.popInt.works fun a _ => ?_
    dsimp only
    cases Value.int32? (a.toInt + b.toInt) with
    | none => exact fail _
    | some n => exact push trivial
  | greaterEqual =>
    exact Reads.popValue.works fun b _ => (lift (Q := fun _ _ => True) h.proper
      (.ofExcept fun _ _ => trivial)).bind fun _ t fs ht _ => Reads.popValue.works fun a _ =>
        (lift (Q := fun _ _ => True) (h.changes ht).proper (.ofExcept fun _ _ => trivial)).bind
          fun c _ _ _ _ => push trivial
  | makeClosure =>
    exact (Peeks.closureOperand hu).works fun f hf => Reads.popEnv.works fun e he =>
      push ⟨hf, he ▸ h.inside⟩
  | truthy =>
    exact Reads.popValue.works fun v _ => (lift (Q := fun _ _ => True) h.proper
      (.ofExcept fun _ _ => trivial)).bind fun b _ _ _ _ => push trivial
  | boxInt => exact Reads.popInt.works fun n _ => push trivial
  | unboxInt =>
    exact Reads.popValue.works fun v _ => (lift (Q := fun _ _ => True) h.proper
      (.ofExcept fun _ _ => trivial)).bind fun n _ _ _ _ => push trivial
  | ret => exact Reads.popValue.works fun v hv => .pure hv

end Works

/-! ## Words that are handed on -/

/-- The instruction takes the word, though it may be no ordinary one. -/
inductive Word.Taken (s : Store) (env : EnvId) : Instruction → Word → Prop
  | force {j : Instruction} {v : Value} (hj : j.op = .force) (hv : v.Lazy s env) :
    Taken s env j (.value v)
  | add {j : Instruction} {v : Value} (hj : j.op = .argAdd ∨ j.op = .argAddNamed)
    (hv : v.Lazy s s.environments.size) : Taken s env j (.value v)
  | keep {w : Word} (hw : w.IsDots s env) : Taken s env ⟨.store, [workSlot]⟩ w
  | splice {j : Instruction} {w : Word}
    (hj : j.op = .argAddAll ∨ j.op = .spliceNames ∨ j.op = .spliceValues) (hw : w.IsDots s env) :
    Taken s env j w

/-- The word on top of the stack is one that the instruction takes, and all else is calm. -/
def Machine.Offers (s : Store) (env : EnvId) (j : Instruction) (m : Machine) : Prop :=
  ∃ w rest, m.stack = w :: rest ∧ w.Taken s env j ∧ Machine.Calm s env { m with stack := rest }

/-- The machine is calm, or offers a word to the instruction at its position. -/
def Machine.Composed (u : CodeUnit) (s : Store) (env : EnvId) (m : Machine) : Prop :=
  m.Calm s env ∨ ∃ j, u.code.Holds m.position j ∧ m.Offers s env j

/-- An instruction, executed on any calm machine at an offset, pushes what the next one takes. -/
def HandsOver (C : Contract) (env : EnvId) (p : Nat) (j : Instruction) (s : Store)
    (act : Host → Stepping Machine.Transfer) : Prop :=
  ∀ m : Machine, m.position = p → m.Calm s env → Conducts C s (fun H => act H m) fun r t =>
    r.1 = .next ∧ r.2.position = p ∧ (r.2.Calm t env ∨ r.2.Offers t env j)

namespace HandsOver

variable {j : Instruction}

lemma push {w : Word} (hw : w.Taken s env j ∨ w.Calm s env) :
    HandsOver C env p j s fun _ => do Machine.push w; return Machine.Transfer.next := by
  rintro m hp hm
  refine .pure ⟨rfl, hp, ?_⟩
  rcases hw with hw | hw
  · exact .inr ⟨w, m.stack, rfl, hw, hm⟩
  · exact .inl ⟨List.forall_mem_cons.2 ⟨hw, hm.stack⟩, hm.slots⟩

lemma after {act : Host → Stepping α} {next : Host → α → Stepping Machine.Transfer}
    (h : Works C env p s act Q)
    (h' : ∀ a t fs, s.Changes fs t → Q a t → HandsOver C env p j t fun H => next H a) :
    HandsOver C env p j s fun H => act H >>= next H := fun m hp hm =>
  (h m hp hm).bind fun r t fs ht ⟨hp, hm, ha⟩ => h' r.1 t fs ht ha r.2 hp hm

lemma afterPeek {act : Stepping α} {P : α → Prop} {next : Host → α → Stepping Machine.Transfer}
    (h : Peeks p act P) (h' : ∀ a, P a → HandsOver C env p j s fun H => next H a) :
    HandsOver C env p j s fun H => act >>= next H := fun m hp hm =>
  h.andThen hp fun a ha => h' a ha m hp hm

/-- Making a promise for an argument. -/
lemma promise {x : Suspension} (h : Room limit s₀ r env size s) (hx : x.Proper s)
    (hbelow : ∀ env', x.env? = some env' → env' ≤ env)
    (hj : j.op = .argAdd ∨ j.op = .argAddNamed) :
    HandsOver (.orderly limit s₀ r) env p j s fun _ => do
      Machine.pushValue (← Eval.promise x)
      return Machine.Transfer.next :=
  after (Works.lift h.proper (.promise hx h.inside hbelow)) fun _ _ _ _ hv =>
    push (.inl (.add hj hv))

end HandsOver

/-- An instruction of a pair pushes what the other one takes. -/
theorem HandsOver.step (h : Room limit s₀ r env ⊤ s) (hu : u.Compiled) {i j : Instruction}
    (hi : u.code.Holds p i) (hands : Hands u i j) :
    HandsOver (.orderly limit s₀ r) env p j s fun H => Machine.step limit H u env i.op := by
  have hname : ∀ {op : Opcode} {n : Nat} {name x : Symbol}, u.code.Holds p ⟨op, [n]⟩ →
      op.widths = [2] → u.constants[n]? = some (.name name) →
      (∃ k, u.code.operand? p 2 0 = some k ∧
        (u.constants[k]? = some (.name x) ∨ u.constants[k]? = some (.primitive x))) → x = name := by
    rintro op n name x hi hw hn ⟨k, hk, hx⟩
    obtain rfl : n = k := Option.some.inj ((hi.operand hw).symm.trans hk)
    rcases hx with hx | hx
    · cases hn.symm.trans hx
      rfl
    · cases hn.symm.trans hx
  have hdots : ∀ {j : Instruction}, (∀ {s : Store} {w : Word}, w.IsDots s env → w.Taken s env j) →
      HandsOver (.orderly limit s₀ r) env p j s
        fun H => Machine.step limit H u env .loadEllipsis := fun hj =>
    after (Works.lift h.proper (.findDots h.proper)) fun args t _ _ hargs =>
      push (.inl (hj ⟨args, rfl, hargs⟩))
  cases hands with
  | reading hn hellipsis =>
    refine afterPeek (Peeks.nameOperand u 0) fun x hx => ?_
    obtain rfl := hname hi rfl hn hx
    exact after (Works.lift h.proper (.findVariable h.proper hellipsis)) fun _ _ _ _ hv =>
      push (.inl (.force rfl hv))
  | promise hn hellipsis hj =>
    refine afterPeek (Peeks.nameOperand u 0) fun x hx => after Reads.popEnv ?_
    obtain rfl := hname hi rfl hn hx
    rintro e t fs ht ⟨-, rfl⟩
    have h := h.changes ht
    exact promise h ⟨hellipsis, h.inside⟩ (fun _ he => Nat.le_of_eq (Option.some.inj he).symm) hj
  | thunk hj =>
    refine afterPeek (Peeks.thunkOperand hu) fun d hd => after Reads.popEnv ?_
    rintro e t fs ht ⟨-, rfl⟩
    have h := h.changes ht
    refine after Reads.popContext fun _ t fs ht _ => ?_
    have h := h.changes ht
    exact promise h ⟨hd, h.inside⟩ (fun _ he => by cases he) hj
  | keep => exact hdots fun hw => .keep hw
  | append => exact hdots fun hw => .splice (.inl rfl) hw
  | splice hj =>
    refine afterPeek (Peeks.operand u 1 0) fun n _ => after (Reads.slot n) ?_
    rintro w t fs - ⟨rfl, hw⟩
    have hw : w.Taken t env j ∨ w.Calm t env := by
      rcases hw with hw | ⟨-, hw⟩
      · exact .inr hw
      · exact .inl (.splice (.inr hj) hw)
    cases w with
    | empty => exact fun m _ _ => .fail _
    | _ => exact push hw

namespace Conducts

variable {q : Nat} {rest : List Word} {S : Array Word} {R' : β × Machine → Store → Prop}

/-- Popping whatever is on top. -/
lemma pop {w : Word} {next : Host → Word → Stepping β}
    (h : Conducts C s (fun H => next H w ⟨q, rest, S⟩) R') :
    Conducts C s (fun H => (Machine.pop >>= next H) ⟨q, w :: rest, S⟩) R' := h

lemma popValue {v : Value} {next : Host → Value → Stepping β}
    (h : Conducts C s (fun H => next H v ⟨q, rest, S⟩) R') :
    Conducts C s (fun H => (Machine.popValue >>= next H) ⟨q, .value v :: rest, S⟩) R' := h

lemma popDots {args : ArgList} {next : Host → ArgList → Stepping β}
    (h : Conducts C s (fun H => next H args ⟨q, rest, S⟩) R') :
    Conducts C s (fun H => (Machine.popDots >>= next H) ⟨q, .value (.dots args) :: rest, S⟩) R' := h

end Conducts

/-- Forcing the arguments bound to `...`. -/
lemma Works.forceAll (h : Room limit s₀ r env ⊤ s) {args : ArgList}
    (hargs : ArgList.Lazy s env args) :
    Works (.orderly limit s₀ r) env p s
      (fun H => args.mapM fun d => (liftM (H.force d.value) : Stepping Value))
      fun (vs : List Value) t => ∀ v ∈ vs, v.PlainIn t := by
  have hforce := Conducts.mapM (Q := Value.PlainIn) (f := fun H (d : Arg Value) => H.force d.value)
    (I := fun s => Room limit s₀ r env ⊤ s ∧ ArgList.Lazy s env args)
    (fun hs ht => ⟨hs.1.changes ht, ht.lazy hs.1.proper hs.2⟩)
    (fun hs ht => ht.plainIn hs.1.proper) ⟨h, hargs⟩ fun d hd s hs =>
      Conducts.force hs.1 ENat.top_pos (hs.2 d hd)
  refine fun m hp hm => Inquiry.of_eq (Works.lift h.proper hforce m hp hm) fun H => ?_
  refine (Machine.mapM_lift (fun d : Arg Value => H.force d.value) args m s).trans ?_
  refine Eq.trans ?_ (Machine.lift_apply (args.mapM fun d : Arg Value => H.force d.value) m s).symm
  cases args.mapM (fun d : Arg Value => H.force d.value) s <;> rfl

/-- An instruction takes the word that it is offered. -/
theorem Machine.Offers.step (h : Room limit s₀ r env ⊤ s) {j : Instruction}
    (hj : u.code.Holds p j) {m : Machine} (hp : m.position = p) (hm : m.Offers s env j) :
    Conducts (.orderly limit s₀ r) s (fun H => Machine.step limit H u env j.op m) fun r t =>
      r.2.position = p ∧ r.2.Calm t env ∧ r.1.Orderly u p j.op t := by
  obtain ⟨q, st, S⟩ := m
  obtain ⟨w, rest, rfl, hw, hm⟩ := hm
  obtain rfl : q = p := hp
  have hdots : ∀ {args : ArgList}, ArgList.Lazy s env args → ArgList.LazyIn args s := fun hargs =>
    hargs.mono (.refl s) (Nat.le_of_lt h.inside)
  cases hw with
  | force hop hv =>
    rw [hop]
    exact .popValue (Works.pushValue (Works.lift h.proper (.force h ENat.top_pos hv)) ⟨q, rest, S⟩
      rfl hm)
  | add hop hv =>
    rcases hop with hop | hop
    · rw [hop]
      exact .popValue (Reads.popArgs.works (fun as has => Works.push (w := .args _)
        (has.push none hv)) ⟨q, rest, S⟩ rfl hm)
    · rw [hop]
      refine (Peeks.nameOperand u 0).andThen rfl fun name _ => .popValue ?_
      exact Reads.popArgs.works (fun as has => Works.push (w := .args _) (has.push (some name) hv))
        ⟨q, rest, S⟩ rfl hm
  | keep hw =>
    refine .pop ((Peeks.operand u 1 0).andThen rfl fun n hn => ?_)
    obtain rfl : workSlot = n := Option.some.inj ((hj.operand rfl).symm.trans hn)
    exact (Reads.setSlot workSlot (.inr ⟨rfl, hw⟩)).works (fun _ _ => .pure trivial) ⟨q, rest, S⟩
      rfl hm
  | splice hop hw =>
    obtain ⟨args, rfl, hargs⟩ := hw
    rcases hop with hop | hop | hop
    · rw [hop]
      refine .popDots (Reads.popArgs.works (fun as has => Works.push (w := .args _) ?_) ⟨q, rest, S⟩
        rfl hm)
      show ArgList.LazyIn (as ++ args.toArray).toList s
      rw [Array.toList_append]
      exact List.forall_mem_append.2 ⟨has, hdots hargs⟩
    · rw [hop]
      refine (Peeks.operand u 2 0).andThen rfl fun n _ => .popDots ?_
      refine Reads.popNames.works (fun ns _ => ?_) ⟨q, rest, S⟩ rfl hm
      split
      · exact Works.push (w := .names _) trivial
      · exact Works.defect _
    · rw [hop]
      refine (Peeks.operand u 2 0).andThen rfl fun n _ => .popDots ?_
      refine Reads.popValues.works (fun vs hvs => ?_) ⟨q, rest, S⟩ rfl hm
      split
      · refine (Works.forceAll h hargs).bind (fun entries t fs ht hentries => ?_)
        refine Works.push (w := .values _) fun v hv => ?_
        rcases Machine.mem_of_mem_spliced hv with hv | hv
        · exact ht.plainIn h.proper (hvs v hv)
        · exact hentries v hv
      · exact Works.defect _

/-! ## Runs -/

lemma Word.Taken.changes (h : s.Changes fs t) (hs : s.Proper) {j : Instruction} {w : Word}
    (hw : w.Taken s env j) : w.Taken t env j := by
  have hb := (h.leads hs).before
  cases hw with
  | force hj hv => exact .force hj (hv.mono hb (Nat.le_refl _))
  | add hj hv => exact .add hj (hv.mono hb hb.environments)
  | keep hw => exact .keep (hw.changes h hs)
  | splice hj hw => exact .splice hj (hw.changes h hs)

lemma Machine.Composed.changes (h : s.Changes fs t) (hs : s.Proper) {m : Machine}
    (hm : m.Composed u s env) : m.Composed u t env := by
  rcases hm with hm | ⟨j, hj, w, rest, hstack, hw, hm⟩
  · exact .inl (hm.changes h hs)
  · exact .inr ⟨j, hj, w, rest, hstack, hw.changes h hs, hm.changes h hs⟩

/-- The position does not matter. -/
lemma Machine.Calm.moved {m : Machine} (h : m.Calm s env) (q : Nat) :
    Machine.Calm s env { m with position := q } := ⟨h.stack, h.slots⟩

lemma Machine.Offers.moved {j : Instruction} {m : Machine} (h : m.Offers s env j) (q : Nat) :
    Machine.Offers s env j { m with position := q } := by
  obtain ⟨w, rest, hstack, hw, hm⟩ := h
  exact ⟨w, rest, hstack, hw, hm.moved q⟩

/-- A machine begins with nothing on its stack, and with the context and the environment in its
slots. -/
lemma Machine.calm_start (u : CodeUnit) (env : EnvId) (s : Store) :
    (Machine.start u env).Calm s env where
  stack w hw := absurd hw List.not_mem_nil
  slots i w hw := by
    refine .inl ?_
    unfold Machine.start at hw
    dsimp only at hw
    simp only [Array.getElem?_setIfInBounds, Array.getElem?_replicate] at hw
    split at hw
    · split at hw <;> cases hw
      rfl
    · split at hw
      · split at hw <;> cases hw
        trivial
      · split at hw <;> cases hw
        trivial

/-- After the instruction at `p` the machine goes on composed, at an instruction, or returns an
ordinary value. It goes on calm if that instruction is one that pushes what is ordinary. -/
def Machine.Turn.Orderly (u : CodeUnit) (B : Nat → Prop) (p : Nat) (env : EnvId) :
    Machine.Turn → Store → Prop
  | .on m, s => B m.position ∧ m.Composed u s env ∧
      ((∀ i, u.code.Holds p i → i.Quiet) → m.Calm s env)
  | .back v, s => v.PlainIn s

variable {options : RuntimeOptions} {B : Nat → Prop} {m : Machine}

namespace Conducts

lemma trace {i : Instruction} (hi : u.code.Holds m.position i) :
    Conducts C s (fun _ => if options.trace then Machine.trace u i.op m else pure ())
      fun _ _ => True := by
  split
  · refine of_yields ?_
    have hoperands : (u.code.readOperands? i.op.widths (m.position + 1)).isSome := by
      rw [hi.operands]
      rfl
    obtain ⟨journal, hj⟩ := Machine.trace_apply hoperands s
    rw [hj]
    exact .ok (.note s journal) trivial
  · exact .pure trivial

/-- The instruction of a composed machine. -/
lemma step (h : Room limit s₀ r env ⊤ s) (hu : u.Compiled) (hB : u.HandsOn B) {i : Instruction}
    (hi : u.code.Holds m.position i) (hp : B m.position) (hnext : B (m.position + i.op.size))
    (hjump : i.op.isJump = true → ∀ t, u.code.operand? m.position 2 0 = some t → B t)
    (hm : m.Composed u s env) :
    Conducts (.orderly limit s₀ r) s (fun H => Machine.step limit H u env i.op m)
      fun r t => (r.1.turn i.op r.2).Orderly u B m.position env t := by
  have hcalm : ∀ {r : Machine.Transfer × Machine} {t : Store}, r.2.position = m.position →
      r.2.Calm t env → r.1.Orderly u m.position i.op t →
        (r.1.turn i.op r.2).Orderly u B m.position env t := by
    rintro ⟨transfer, m'⟩ t hp' hm' htransfer
    cases transfer with
    | next =>
      rw [← hp'] at hnext
      exact ⟨hnext, .inl (hm'.moved _), fun _ => hm'.moved _⟩
    | jump target => exact ⟨hjump htransfer.1 target htransfer.2, .inl (hm'.moved _), fun _ => hm'.moved _⟩
    | ret v => exact htransfer
  rcases hm with hm | ⟨j, hj, hm⟩
  · rcases hB.hands _ i hp hi with hquiet | ⟨j, hj, hands⟩
    · exact (Works.step_quiet h hu hi hquiet m rfl hm).mono fun r t fs _ ⟨hp', hm', ht⟩ =>
        hcalm hp' hm' ht
    · refine (HandsOver.step h hu hi hands m rfl hm).mono ?_
      rintro ⟨transfer, m'⟩ t fs - ⟨rfl, hp', hm'⟩
      rw [← hp'] at hnext hj
      exact ⟨hnext, hm'.imp (fun hm' => hm'.moved _) fun hm' => ⟨j, hj, hm'.moved _⟩,
        fun hquiet => absurd (hquiet i hi) hands.not_quiet⟩
  · obtain rfl := hj.unique hi
    exact (Machine.Offers.step h hi rfl hm).mono fun r t fs _ ⟨hp', hm', ht⟩ => hcalm hp' hm' ht

/-- Executing an instruction of a composed machine. -/
theorem advance (h : Room options.maxDepth s₀ r env ⊤ s) (hu : u.Compiled)
    (hB : u.HandsOn B) (hp : B m.position) (hm : m.Composed u s env) :
    Conducts (.orderly options.maxDepth s₀ r) s (fun H => Machine.advance options H u env m)
      (Machine.Turn.Orderly u B m.position env) := by
  rcases hB.steps.reads _ hp with hend | ⟨op, hop, hread, hnext, hjump⟩
  · have hfail : ∀ H, Machine.advance options H u env m
        = Eval.fail (.internal (.ranPast u.name)) := fun H => by
      unfold Machine.advance
      rw [hend]
    exact Inquiry.of_eq (fail _) fun H => congrFun (hfail H) s
  obtain ⟨operands, hread⟩ := Option.isSome_iff_exists.1 hread
  have hi : u.code.Holds m.position ⟨op, operands⟩ := ⟨hop, hread⟩
  refine Inquiry.of_eq ?_ fun H => congrFun (Machine.advance_of_op hop) s
  refine (trace hi).bind fun _ t fs ht _ => ?_
  exact (step (h.changes ht) hu hB hi hp hnext hjump (hm.changes ht h.proper)).bind
    fun r t fs _ hr => .pure hr

/-- A run of a composed machine. -/
theorem run (hu : u.Compiled) (hB : u.HandsOn B) : ∀ {steps : Nat} {m : Machine} {s : Store},
    Room options.maxDepth s₀ r env ⊤ s → B m.position → m.Composed u s env →
      Conducts (.orderly options.maxDepth s₀ r) s (fun H => Machine.run options H u env steps m)
        Value.PlainIn
  | 0, _, _, _, _, _ => throw _
  | steps + 1, m, s, h, hp, hm => by
    refine Inquiry.of_eq ?_ fun H => congrFun (Machine.run_eq_advance steps m) s
    refine h.bind (advance h hu hB hp hm) fun turn t fs _ h hturn => ?_
    cases turn with
    | on m => exact run hu hB h hturn.1 hturn.2.1
    | back v => exact .pure hturn

/-- **Performing a task is orderly.** -/
theorem perform {steps : Nat} {τ : Task} (hs : ∃ fs, s₀.Reached fs s) (hτ : τ.Proper s) :
    Conducts (.orderly options.maxDepth s₀ (τ.rank options.maxDepth s)) s
      (fun H => CallByNeed.perform options H steps τ) Value.PlainIn := by
  cases τ with
  | force p => exact forcePromise hs
  | eval env e => exact eval hs hτ
  | execute u env =>
    obtain ⟨B, hB⟩ := hτ.1.handsOn
    exact run hτ.1 hB ⟨hs, hτ.2, le_refl _⟩ hB.steps.start (.inl (Machine.calm_start u env s))

end Conducts

end CallByNeed
