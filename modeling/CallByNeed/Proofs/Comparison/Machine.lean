import CallByNeed.Proofs.Code.Unit
import CallByNeed.Proofs.Comparison.Forms

/-!
# Executing a unit side by side

One unit, executed by machines with related words, on hosts that do the same tasks alike. An
instruction takes both machines to the same place; so a whole run gives related values.
-/

namespace CallByNeed

/-- Everything is related to itself, whatever it is. -/
structure World.Reflexive (W : World) : Prop where
  unpinned : ¬ W.pins
  named : W.named
  defects : W.defects
  code : ∀ c, W.code c c

variable {W : World} {n m : Nat} {H : Host} {H' : Nat → Host} {env : EnvId} {limit : Nat}

namespace World.Reflexive

lemma function (h : W.Reflexive) (f : FunctionUnit) : FunctionRel W f f where
  name _ := rfl
  formals := List.forall₂_same.2 fun f _ =>
    ⟨rfl, fun hp => absurd hp h.unpinned, by
      cases f.default with
      | none => exact .none
      | some u => exact .some (h.code (.unit u))⟩
  body := h.code (.unit f.body)

lemma transparent (h : W.Reflexive) : W.Transparent where
  unpinned := h.unpinned
  code e := h.code (.expr e)
  literal _ u _ _ := h.function u

end World.Reflexive

/-! ## Words and machines -/

/-- The same word up to code. -/
inductive WordRel (W : World) (n : Nat) : Word → Word → Prop
  | empty : WordRel W n .empty .empty
  | int (i : Int32) : WordRel W n (.int i) (.int i)
  | value {v v' : Value} (h : ValueRel W n v v') : WordRel W n (.value v) (.value v')
  | context : WordRel W n .context .context
  | env (e : EnvId) : WordRel W n (.env e) (.env e)
  | call (c : Call) : WordRel W n (.call c) (.call c)
  | names (ns : Array (Option Symbol)) : WordRel W n (.names ns) (.names ns)
  | values {vs vs' : Array Value} (h : ValuesRel W n vs.toList vs'.toList) :
    WordRel W n (.values vs) (.values vs')
  | args {as as' : Array (Arg Value)} (h : ArgsRel W n as.toList as'.toList) :
    WordRel W n (.args as) (.args as')

lemma WordRel.mono (hnm : n ≤ m) {w w' : Word} (h : WordRel W n w w') : WordRel W m w w' := by
  cases h with
  | empty => exact .empty
  | int i => exact .int i
  | value h => exact .value (h.mono hnm)
  | context => exact .context
  | env e => exact .env e
  | call c => exact .call c
  | names ns => exact .names ns
  | values h => exact .values (h.mono hnm)
  | args h => exact .args (h.mono hnm)

/-- Machines at the same position with related words. -/
structure MachineRel (W : World) (n p : Nat) (M M' : Machine) : Prop where
  left : M.position = p
  right : M'.position = p
  stack : List.Forall₂ (WordRel W n) M.stack M'.stack
  slots : ArrayRel (WordRel W n) M.slots M'.slots

lemma MachineRel.mono (hnm : n ≤ m) {p : Nat} {M M' : Machine} (h : MachineRel W n p M M') :
    MachineRel W m p M M' :=
  ⟨h.left, h.right, h.stack.imp fun _ _ h => h.mono hnm, h.slots.imp fun _ _ h => h.mono hnm⟩

/-- Machines at one position, which they keep. -/
def MachineRel.kept (W : World) (p : Nat) : Kept Machine :=
  ⟨fun n => MachineRel W n p, fun hnm h => h.mono hnm⟩

/-- Steps of machines at one position. -/
abbrev SteppingRel {α β : Type} (W : World) (n p : Nat) (R : Nat → α → β → Prop) (A : Stepping α)
    (B : Nat → Stepping β) : Prop := StateRel W (MachineRel.kept W p) n R A B

namespace SteppingRel

variable {α β γ δ : Type} {R : Nat → α → β → Prop} {R' : Nat → γ → δ → Prop} {A : Stepping α}
  {B : Nat → Stepping β} {p : Nat}

/-- An evaluation in a step. -/
lemma lift {E : Eval α} {F : Nat → Eval β} (h : EvalRel W n R E F) :
    SteppingRel W n p R (liftM E) fun k => liftM (F k) := by
  exact StateRel.of_lift h (Machine.lift_apply E) fun k => Machine.lift_apply (F k)

/-- Both fail with an error of the language. -/
lemma fail {e : EvalError} (he : ¬ (Halt.error e).IsInternal) :
    SteppingRel W n p R (liftM (Eval.fail e : Eval α)) fun _ => liftM (Eval.fail e : Eval β) :=
  lift (.fail fun hi => absurd hi he)

/-- Both find a defect. -/
lemma defect (hd : W.defects) (f f' : InternalFault) :
    SteppingRel W n p R (Machine.defect f) fun _ => Machine.defect f' :=
  fun _ _ _ => EvalRel.defect hd f f'

/-- What follows something that never goes on does not matter. -/
lemma defect_bind (hd : W.defects) (f f' : InternalFault) (g : α → Stepping γ)
    (g' : Nat → β → Stepping δ) :
    SteppingRel W n p R' (Machine.defect f >>= g) fun k => Machine.defect f' >>= g' k :=
  StateRel.bind (defect (R := fun _ _ _ => False) hd f f') fun _ _ _ _ h => h.elim

lemma fail_bind {e : EvalError} (he : ¬ (Halt.error e).IsInternal) (g : α → Stepping γ)
    (g' : Nat → β → Stepping δ) :
    SteppingRel W n p R' (liftM (Eval.fail e : Eval α) >>= g)
      fun k => liftM (Eval.fail e : Eval β) >>= g' k :=
  StateRel.bind (fail (R := fun _ _ _ => False) he) fun _ _ _ _ h => h.elim

end SteppingRel

/-! ## Parts of instructions -/

namespace Machine

variable {p : Nat} {u : CodeUnit} {w w' : Word}

section

variable (hd : W.defects)
include hd

lemma pop_rel : SteppingRel W n p (WordRel W) pop fun _ => pop := by
  rintro ⟨position, stack, slots⟩ ⟨position', stack', slots'⟩ ⟨hl, hr, hstack, hslots⟩
  cases hstack with
  | nil => exact EvalRel.defect hd _ _
  | cons hw hstack =>
    exact EvalRel.pure fun m hm =>
      ⟨hw.mono hm, hl, hr, hstack.imp fun _ _ h => h.mono hm, hslots.imp fun _ _ h => h.mono hm⟩

omit hd in
lemma push_rel (hw : WordRel W n w w') :
    SteppingRel W n p (fun _ _ _ => True) (push w) fun _ => push w' :=
  fun _ _ hM => EvalRel.pure fun _ hm =>
    ⟨trivial, hM.left, hM.right, .cons (hw.mono hm) (hM.stack.imp fun _ _ h => h.mono hm),
      hM.slots.imp fun _ _ h => h.mono hm⟩

lemma top_rel : SteppingRel W n p (WordRel W) top fun _ => top :=
  (pop_rel hd).bind fun _ _ _ _ hw => (push_rel hw).bind fun _ hm _ _ _ =>
    StateRel.pure fun _ hk => hw.mono (Nat.le_trans hm hk)

lemma popValue_rel : SteppingRel W n p (ValueRel W) popValue fun _ => popValue := by
  refine (pop_rel hd).bind fun m _ w w' hw => ?_
  cases hw with
  | value hv => exact StateRel.pure fun _ hk => hv.mono hk
  | _ => exact SteppingRel.defect hd _ _

lemma popInt_rel : SteppingRel W n p (fun _ => Eq) popInt fun _ => popInt := by
  refine (pop_rel hd).bind fun m _ w w' hw => ?_
  cases hw with
  | int i => exact StateRel.pure fun _ _ => rfl
  | _ => exact SteppingRel.defect hd _ _

lemma popContext_rel : SteppingRel W n p (fun _ _ _ => True) popContext fun _ => popContext := by
  refine (pop_rel hd).bind fun m _ w w' hw => ?_
  cases hw with
  | context => exact StateRel.pure fun _ _ => trivial
  | _ => exact SteppingRel.defect hd _ _

lemma popEnv_rel : SteppingRel W n p (fun _ => Eq) popEnv fun _ => popEnv := by
  refine (pop_rel hd).bind fun m _ w w' hw => ?_
  cases hw with
  | env e => exact StateRel.pure fun _ _ => rfl
  | _ => exact SteppingRel.defect hd _ _

lemma popCall_rel : SteppingRel W n p (fun _ => Eq) popCall fun _ => popCall := by
  refine (pop_rel hd).bind fun m _ w w' hw => ?_
  cases hw with
  | call c => exact StateRel.pure fun _ _ => rfl
  | _ => exact SteppingRel.defect hd _ _

lemma popNames_rel : SteppingRel W n p (fun _ => Eq) popNames fun _ => popNames := by
  refine (pop_rel hd).bind fun m _ w w' hw => ?_
  cases hw with
  | names ns => exact StateRel.pure fun _ _ => rfl
  | _ => exact SteppingRel.defect hd _ _

lemma popValues_rel :
    SteppingRel W n p (fun m vs vs' => ValuesRel W m vs.toList vs'.toList) popValues
      fun _ => popValues := by
  refine (pop_rel hd).bind fun m _ w w' hw => ?_
  cases hw with
  | values h => exact StateRel.pure fun _ hk => h.mono hk
  | _ => exact SteppingRel.defect hd _ _

lemma popArgs_rel :
    SteppingRel W n p (fun m as as' => ArgsRel W m as.toList as'.toList) popArgs
      fun _ => popArgs := by
  refine (pop_rel hd).bind fun m _ w w' hw => ?_
  cases hw with
  | args h => exact StateRel.pure fun _ hk => h.mono hk
  | _ => exact SteppingRel.defect hd _ _

lemma popDots_rel : SteppingRel W n p (ArgsRel W) popDots fun _ => popDots := by
  refine (popValue_rel hd).bind fun m _ v v' hv => ?_
  cases hv with
  | dots _ h => exact StateRel.pure fun _ hk => h.mono hk
  | _ => exact SteppingRel.fail id

lemma slot_rel (index : Nat) : SteppingRel W n p (WordRel W) (slot index) fun _ => slot index := by
  intro M M' hM
  have hslot := hM.slots.getElem? index
  simp only [slot_read]
  revert hslot
  generalize M.slots[index]? = x
  generalize M'.slots[index]? = x'
  intro hslot
  cases hslot with
  | none => exact EvalRel.defect hd _ _
  | some hw => exact EvalRel.pure fun m hm => ⟨hw.mono hm, hM.mono hm⟩

lemma setSlot_rel (index : Nat) (hw : WordRel W n w w') :
    SteppingRel W n p (fun _ _ _ => True) (setSlot index w) fun _ => setSlot index w' := by
  refine (slot_rel hd index).bind fun m hm _ _ _ => fun M M' hM => ?_
  refine EvalRel.pure fun k hk => ⟨trivial, hM.left, hM.right,
    hM.stack.imp fun _ _ h => h.mono hk, ?_⟩
  exact (hM.slots.imp fun _ _ h => h.mono hk).setIfInBounds index
    (hw.mono (Nat.le_trans hm hk))

omit hd in
lemma operand_rel (u : CodeUnit) (width skip : Nat) :
    SteppingRel W n p (fun _ t t' => t = t' ∧ u.code.operand? p width skip = some t)
      (operand u width skip) fun _ => operand u width skip := by
  intro M M' hM
  simp only [operand_read]
  rw [hM.left, hM.right]
  cases h : u.code.operand? p width skip with
  | none => exact EvalRel.throw False.elim
  | some t => exact EvalRel.pure fun m hm => ⟨⟨rfl, rfl⟩, hM.mono hm⟩

omit hd in
lemma operand_same (u : CodeUnit) (width skip : Nat) :
    SteppingRel W n p (fun _ => Eq) (operand u width skip) fun _ => operand u width skip :=
  (operand_rel u width skip).weaken fun _ _ _ _ ht => ht.1

lemma constant_rel (u : CodeUnit) (index : Nat) :
    SteppingRel W n p (fun _ => Eq) (constant u index) fun _ => constant u index := by
  unfold constant
  cases u.constants[index]? with
  | none => exact SteppingRel.defect hd _ _
  | some c => exact StateRel.pure fun _ _ => rfl

lemma nameOperand_rel (u : CodeUnit) (skip : Nat) :
    SteppingRel W n p (fun _ => Eq) (nameOperand u skip) fun _ => nameOperand u skip := by
  refine (operand_same u 2 skip).bind_same fun m _ t => ?_
  refine (constant_rel hd u t).bind_same fun m _ c => ?_
  cases c with
  | name => exact StateRel.pure fun _ _ => rfl
  | primitive => exact StateRel.pure fun _ _ => rfl
  | _ => exact SteppingRel.defect hd _ _

lemma callOperand_rel (u : CodeUnit) :
    SteppingRel W n p (fun _ => Eq) (callOperand u) fun _ => callOperand u := by
  refine (operand_same u 2 0).bind_same fun m _ t => ?_
  refine (constant_rel hd u t).bind_same fun m _ c => ?_
  cases c with
  | call => exact StateRel.pure fun _ _ => rfl
  | _ => exact SteppingRel.defect hd _ _

lemma thunkOperand_rel (u : CodeUnit) :
    SteppingRel W n p (fun _ => Eq) (thunkOperand u) fun _ => thunkOperand u := by
  refine (operand_same u 2 0).bind_same fun m _ t => ?_
  cases u.thunks[t]? with
  | none => exact SteppingRel.defect hd _ _
  | some c => exact StateRel.pure fun _ _ => rfl

lemma closureOperand_rel (u : CodeUnit) :
    SteppingRel W n p (fun _ => Eq) (closureOperand u) fun _ => closureOperand u := by
  refine (operand_same u 2 0).bind_same fun m _ t => ?_
  cases u.closures[t]? with
  | none => exact SteppingRel.defect hd _ _
  | some c => exact StateRel.pure fun _ _ => rfl

end

/-! ## Calls -/

section

variable (hR : W.Reflexive) (hW : W.Lawful) (hH : HostRel W H H')
include hR

lemma applySpecial_rel (hH : HostRel W H H') :
    SteppingRel W n p (ValueRel W) (applySpecial H) fun k => applySpecial (H' k) := by
  have hd := hR.defects
  have hT := hR.transparent
  refine (popCall_rel hd).bind_same fun _ _ call => ?_
  refine (popEnv_rel hd).bind_same fun _ _ env => ?_
  refine (popContext_rel hd).bind fun _ _ _ _ _ => ?_
  refine (popValue_rel hd).bind fun m _ v v' hv => ?_
  cases hv with
  | special hs =>
    exact SteppingRel.lift (Special.invoke_rel hH (hT.valid env) (fun a _ => hT.code a.value) hs)
  | _ => exact SteppingRel.defect hd _ _

lemma applyClosure_rel (hW : W.Lawful) (hH : HostRel W H H') :
    SteppingRel W n p (ValueRel W) (applyClosure limit H) fun k => applyClosure limit (H' k) := by
  have hd := hR.defects
  refine (popArgs_rel hd).bind fun m _ as as' has => ?_
  refine (popCall_rel hd).bind_same fun m₁ hm₁ call => ?_
  refine (popContext_rel hd).bind fun m₂ hm₂ _ _ _ => ?_
  refine (popValue_rel hd).bind fun m₃ hm₃ v v' hv => ?_
  cases hv with
  | closure hf he =>
    have hle : m ≤ m₃ := Nat.le_trans (Nat.le_trans hm₁ hm₂) hm₃
    exact SteppingRel.lift (CallByNeed.applyClosure_rel hW hH hf he call (has.mono hle))
  | _ => exact SteppingRel.defect hd _ _

/-- Arrays of values that are compared one by one, with the same names. -/
abbrev BuiltinCallRel (W : World) (n : Nat)
    (x x' : Call × List (Option Symbol) × List Value) : Prop :=
  x.1 = x'.1 ∧ x.2.1 = x'.2.1 ∧ ValuesRel W n x.2.2 x'.2.2

lemma popBuiltinCall_rel :
    SteppingRel W n p (BuiltinCallRel W) popBuiltinCall fun _ => popBuiltinCall := by
  have hd := hR.defects
  refine (popValues_rel hd).bind fun m _ vs vs' hvs => ?_
  refine (popNames_rel hd).bind_same fun m₁ hm₁ ns => ?_
  refine (popCall_rel hd).bind_same fun m₂ hm₂ call => ?_
  refine (popEnv_rel hd).bind fun m₃ hm₃ _ _ _ => ?_
  refine (popContext_rel hd).bind fun m₄ hm₄ _ _ _ => ?_
  refine StateRel.pure fun m₅ hm₅ => ⟨rfl, rfl, hvs.mono ?_⟩
  omega

lemma invoke_rel (b : Builtin) (call : Call) (names : List (Option Symbol)) {vs vs' : List Value}
    (hvs : ValuesRel W n vs vs') :
    SteppingRel W n p (ValueRel W) (invoke b call names vs) fun _ => invoke b call names vs' := by
  by_cases hnames : names.length = vs.length
  · have hinvoke := b.invoke_answers call hvs hnames
    unfold invoke
    revert hinvoke
    generalize b.invoke call names vs = r
    generalize b.invoke call names vs' = r'
    intro hinvoke
    cases hinvoke with
    | ok h => exact StateRel.pure fun _ hm => h.mono hm
    | error he => exact fun _ _ _ => EvalRel.throw fun hi => absurd hi he
  · have hnames' : names.length ≠ vs'.length := fun h => hnames (h.trans hvs.length.symm)
    unfold invoke Builtin.invoke
    rw [if_neg hnames, if_neg hnames']
    exact SteppingRel.defect hR.defects _ _

lemma applyBuiltin_rel :
    SteppingRel W n p (ValueRel W) applyBuiltin fun _ => applyBuiltin := by
  refine (popBuiltinCall_rel hR).bind fun m _ x x' hx => ?_
  obtain ⟨call, names, vs⟩ := x
  obtain ⟨call', names', vs'⟩ := x'
  obtain ⟨hcall, hnames, hvs⟩ := hx
  dsimp only at hcall hnames hvs
  subst hcall hnames
  refine (popValue_rel hR.defects).bind fun m hm v v' hv => ?_
  cases hv with
  | builtin b => exact invoke_rel hR b call names (hvs.mono hm)
  | _ => exact SteppingRel.defect hR.defects _ _

lemma callPrimitive_rel (name : Symbol) :
    SteppingRel W n p (ValueRel W) (callPrimitive name) fun _ => callPrimitive name := by
  unfold callPrimitive
  cases Builtin.ofName? name.name with
  | none => exact SteppingRel.defect hR.defects _ _
  | some b =>
    refine (popBuiltinCall_rel hR).bind fun m _ x x' hx => ?_
    obtain ⟨call, names, vs⟩ := x
    obtain ⟨call', names', vs'⟩ := x'
    obtain ⟨hcall, hnames, hvs⟩ := hx
    dsimp only at hcall hnames hvs
    subst hcall hnames
    exact invoke_rel hR b call names hvs

/-! ## Instructions -/

/-- Where execution goes on, in both machines. -/
inductive TransferRel (W : World) (n : Nat) (u : CodeUnit) (p : Nat) (op : Opcode) :
    Transfer → Transfer → Prop
  | next : TransferRel W n u p op .next .next
  | jump {t : Nat} (hop : op.isJump = true) (ht : u.code.operand? p 2 0 = some t) :
    TransferRel W n u p op (.jump t) (.jump t)
  | ret {v v' : Value} (h : ValueRel W n v v') : TransferRel W n u p op (.ret v) (.ret v')

omit hR

variable {op : Opcode}

lemma next_rel : SteppingRel W n p (fun m => TransferRel W m u p op) (pure .next)
    fun _ => pure .next := StateRel.pure fun _ _ => .next

lemma push_next (hw : WordRel W n w w') :
    SteppingRel W n p (fun m => TransferRel W m u p op) (push w >>= fun _ => pure .next)
      fun _ => push w' >>= fun _ => pure .next :=
  (push_rel hw).bind fun _ _ _ _ _ => next_rel

lemma pushValue_next {v v' : Value} (hv : ValueRel W n v v') :
    SteppingRel W n p (fun m => TransferRel W m u p op) (pushValue v >>= fun _ => pure .next)
      fun _ => pushValue v' >>= fun _ => pure .next := push_next (.value hv)

lemma jumpIf_rel (hop : op.isJump = true) (c : Bool) :
    SteppingRel W n p (fun m => TransferRel W m u p op) (jumpIf u c) fun _ => jumpIf u c := by
  unfold jumpIf
  cases c with
  | false => exact next_rel
  | true =>
    refine (operand_rel u 2 0).bind fun m _ t t' ht => ?_
    obtain ⟨rfl, ht⟩ := ht
    exact StateRel.pure fun _ _ => .jump hop ht

/-- Arguments that an instruction forces one after the other. -/
lemma forceEach_rel (hH : HostRel W H H') {as as' : ArgList} (h : ArgsRel W n as as') :
    SteppingRel W n p (fun m => List.Forall₂ (ValueRel W m))
      (as.mapM fun a => (liftM (H.force a.value) : Stepping Value))
      fun k => as'.mapM fun a => (liftM ((H' k).force a.value) : Stepping Value) := by
  refine StateRel.of_lift (Host.forceEach_rel hH h) (fun M s => ?_) fun k M s => ?_
  · refine (Machine.mapM_lift (fun a : Arg Value => H.force a.value) as M s).trans ?_
    cases as.mapM (fun a : Arg Value => H.force a.value) s <;> rfl
  · refine (Machine.mapM_lift (fun a : Arg Value => (H' k).force a.value) as' M s).trans ?_
    cases as'.mapM (fun a : Arg Value => (H' k).force a.value) s <;> rfl

lemma forall₂_set {α β : Type} {R : α → β → Prop} {as : List α} {bs : List β}
    (h : List.Forall₂ R as bs) (i : Nat) {a : α} {b : β} (hab : R a b) :
    List.Forall₂ R (as.set i a) (bs.set i b) := by
  induction h generalizing i with
  | nil => exact .nil
  | cons h hs ih =>
    cases i with
    | zero => exact .cons hab hs
    | succ i => exact .cons h (ih i)

lemma spliced_rel {α β : Type} {R : α → β → Prop} {as : Array α} {bs : Array β}
    (h : List.Forall₂ R as.toList bs.toList) (position : Nat) {xs : List α} {ys : List β}
    (hxs : List.Forall₂ R xs ys) :
    List.Forall₂ R (spliced as position xs).toList (spliced bs position ys).toList := by
  have hsize : as.size = bs.size := by simpa using h.length_eq
  unfold spliced
  simp only [Array.toList_append, Array.toList_extract, List.extract_eq_take_drop, Nat.sub_zero,
    List.drop_zero]
  refine List.rel_append (List.rel_append (List.forall₂_take position h) hxs) ?_
  rw [hsize]
  exact List.forall₂_take _ (List.forall₂_drop _ h)

end

/-- An instruction takes related machines to the same place. -/
theorem step_rel (hR : W.Reflexive) (hW : W.Lawful) (hH : HostRel W H H') (u : CodeUnit)
    (op : Opcode) :
    SteppingRel W n p (fun m => TransferRel W m u p op) (step limit H u env op)
      fun k => step limit (H' k) u env op := by
  have hd := hR.defects
  have hT := hR.transparent
  cases op with
  | constant =>
    refine (operand_same u 2 0).bind_same fun m _ t => ?_
    refine (constant_rel hd u t).bind_same fun m _ c => ?_
    cases c with
    | literal e => exact pushValue_next (.ofExpr e)
    | call c => exact push_next (.call c)
    | _ => exact SteppingRel.defect_bind hd _ _ _ _
  | int =>
    refine (operand_same u 4 0).bind_same fun m _ t => ?_
    exact push_next (.int _)
  | load =>
    refine (operand_same u 1 0).bind_same fun m _ t => ?_
    refine (slot_rel hd t).bind fun m _ w w' hw => ?_
    cases hw with
    | empty => exact SteppingRel.defect_bind hd _ _ _ _
    | int i => exact push_next (.int i)
    | value h => exact push_next (.value h)
    | context => exact push_next .context
    | env e => exact push_next (.env e)
    | call c => exact push_next (.call c)
    | names ns => exact push_next (.names ns)
    | values h => exact push_next (.values h)
    | args h => exact push_next (.args h)
  | store =>
    refine (pop_rel hd).bind fun m _ w w' hw => ?_
    refine (operand_same u 1 0).bind_same fun m₁ hm₁ t => ?_
    exact (setSlot_rel hd t (hw.mono hm₁)).bind fun _ _ _ _ _ => next_rel
  | loadInt =>
    refine (operand_same u 1 0).bind_same fun m _ t => ?_
    refine (slot_rel hd t).bind fun m _ w w' hw => ?_
    cases hw with
    | int i => exact push_next (.int i)
    | _ => exact SteppingRel.defect_bind hd _ _ _ _
  | storeInt =>
    refine (popInt_rel hd).bind_same fun m _ i => ?_
    refine (operand_same u 1 0).bind_same fun m _ t => ?_
    exact (setSlot_rel hd t (.int i)).bind fun _ _ _ _ _ => next_rel
  | incLocal =>
    refine (operand_same u 1 0).bind_same fun m _ t => ?_
    refine (slot_rel hd t).bind fun m _ w w' hw => ?_
    cases hw with
    | int i =>
      dsimp only
      cases Value.int32? (i.toInt + 1) with
      | some j => exact (setSlot_rel hd t (.int j)).bind fun _ _ _ _ _ => next_rel
      | none => exact SteppingRel.fail_bind id _ _
    | _ => exact SteppingRel.defect_bind hd _ _ _ _
  | dup => exact (top_rel hd).bind fun _ _ _ _ hw => push_next hw
  | pop => exact (pop_rel hd).bind fun _ _ _ _ _ => next_rel
  | jump =>
    refine (operand_rel u 2 0).bind fun m _ t t' ht => ?_
    obtain ⟨rfl, ht⟩ := ht
    exact StateRel.pure fun _ _ => .jump rfl ht
  | jumpIfZero =>
    refine (popInt_rel hd).bind_same fun m _ i => ?_
    exact jumpIf_rel rfl _
  | jumpIfNonZero =>
    refine (popInt_rel hd).bind_same fun m _ i => ?_
    exact jumpIf_rel rfl _
  | jumpIfIntLess =>
    refine (popInt_rel hd).bind_same fun m _ b => ?_
    refine (popInt_rel hd).bind_same fun m _ a => ?_
    exact jumpIf_rel rfl _
  | findVariable =>
    refine (nameOperand_rel hd u 0).bind_same fun m _ name => ?_
    refine StateRel.bind (SteppingRel.lift (.findVariable (hT.readable name))) fun m _ v v' hv => ?_
    exact pushValue_next (hv.unpinned hR.unpinned)
  | findFunction =>
    refine (nameOperand_rel hd u 0).bind_same fun m _ name => ?_
    refine StateRel.bind (SteppingRel.lift (Host.findFunction_rel hH name)) fun m _ v v' hv => ?_
    exact pushValue_next (hv.unpinned hR.unpinned).1
  | setVariable =>
    refine (nameOperand_rel hd u 0).bind_same fun m _ name => ?_
    refine (popValue_rel hd).bind fun m _ v v' hv => ?_
    refine StateRel.bind (SteppingRel.lift (.setVariable (hT.settable name) hv)) fun _ _ _ _ _ => ?_
    exact next_rel
  | force =>
    refine (popValue_rel hd).bind fun m _ v v' hv => ?_
    refine StateRel.bind (SteppingRel.lift (Host.force_rel hH (.value hv))) fun m _ v v' hv => ?_
    exact pushValue_next hv
  | checkFunction =>
    refine (callOperand_rel hd u).bind_same fun m _ call => ?_
    refine (popValue_rel hd).bind fun m _ v v' hv => ?_
    refine StateRel.bind (SteppingRel.lift (Host.force_rel hH (.value hv))) fun m _ v v' hv => ?_
    rw [← hv.category]
    split
    · exact pushValue_next hv
    · exact SteppingRel.fail_bind id _ _
  | isBuiltin =>
    refine (popValue_rel hd).bind fun m _ v v' hv => ?_
    rw [hv.category]
    exact push_next (.int _)
  | isClosure =>
    refine (popValue_rel hd).bind fun m _ v v' hv => ?_
    rw [hv.category]
    exact push_next (.int _)
  | castBuiltin =>
    refine (top_rel hd).bind fun m _ w w' hw => ?_
    cases hw with
    | value hv =>
      cases hv with
      | builtin b => exact next_rel
      | _ => exact SteppingRel.defect hd _ _
    | _ => exact SteppingRel.defect hd _ _
  | castClosure =>
    refine (top_rel hd).bind fun m _ w w' hw => ?_
    cases hw with
    | value hv =>
      cases hv with
      | closure hf he => exact next_rel
      | _ => exact SteppingRel.defect hd _ _
    | _ => exact SteppingRel.defect hd _ _
  | applySpecial =>
    exact (applySpecial_rel hR hH).bind fun _ _ _ _ hv => pushValue_next hv
  | newArgList => exact push_next (.args .nil)
  | argAdd =>
    refine (popValue_rel hd).bind fun m _ v v' hv => ?_
    refine (popArgs_rel hd).bind fun m₁ hm₁ as as' has => ?_
    refine push_next (.args ?_)
    rw [Array.toList_push, Array.toList_push]
    exact has.append (.cons (.value (hv.mono hm₁)) (hv.text hR.named) .nil)
  | argAddNamed =>
    refine (nameOperand_rel hd u 0).bind_same fun m _ name => ?_
    refine (popValue_rel hd).bind fun m _ v v' hv => ?_
    refine (popArgs_rel hd).bind fun m₁ hm₁ as as' has => ?_
    refine push_next (.args ?_)
    rw [Array.toList_push, Array.toList_push]
    exact has.append (.cons (.value (hv.mono hm₁)) (hv.text hR.named) .nil)
  | argAddAll =>
    refine (popDots_rel hd).bind fun m _ ds ds' hds => ?_
    refine (popArgs_rel hd).bind fun m₁ hm₁ as as' has => ?_
    refine push_next (.args ?_)
    rw [Array.toList_append, Array.toList_append]
    exact has.append (hds.mono hm₁)
  | applyClosure =>
    exact (applyClosure_rel hR hW hH).bind fun _ _ _ _ hv => pushValue_next hv
  | makeVariablePromise =>
    refine (nameOperand_rel hd u 0).bind_same fun m _ name => ?_
    refine (popEnv_rel hd).bind_same fun m _ e => ?_
    refine StateRel.bind (SteppingRel.lift (.promise (.reading (hT.readable name) (hT.valid e))))
      fun m _ v v' hv => ?_
    obtain ⟨rfl, q, rfl⟩ := hv
    exact pushValue_next (.promise hR.unpinned q)
  | makeThunk =>
    refine (thunkOperand_rel hd u).bind_same fun m _ thunk => ?_
    refine (popEnv_rel hd).bind_same fun m _ e => ?_
    refine (popContext_rel hd).bind fun m _ _ _ _ => ?_
    refine StateRel.bind (SteppingRel.lift (.promise (.code (hR.code (.unit thunk)) (hT.valid e))))
      fun m _ v v' hv => ?_
    obtain ⟨rfl, q, rfl⟩ := hv
    exact pushValue_next (.promise hR.unpinned q)
  | evalThunk =>
    refine (thunkOperand_rel hd u).bind_same fun m _ thunk => ?_
    refine (popEnv_rel hd).bind_same fun m _ e => ?_
    refine (popContext_rel hd).bind fun m _ _ _ _ => ?_
    refine StateRel.bind (SteppingRel.lift (Host.executeNested_rel hW hH (hR.code _) (hT.valid e)))
      fun m _ v v' hv => ?_
    exact pushValue_next hv
  | loadEllipsis =>
    exact StateRel.bind (SteppingRel.lift .findDots) fun m _ ds ds' hds =>
      pushValue_next (.dots hR.unpinned hds)
  | newNames =>
    refine (operand_same u 2 0).bind_same fun m _ t => ?_
    exact push_next (.names _)
  | nameAt =>
    refine (operand_same u 2 0).bind_same fun m _ t => ?_
    refine (nameOperand_rel hd u 2).bind_same fun m _ name => ?_
    refine (popNames_rel hd).bind_same fun m _ names => ?_
    split
    · exact push_next (.names _)
    · exact SteppingRel.defect_bind hd _ _ _ _
  | spliceNames =>
    refine (operand_same u 2 0).bind_same fun m _ t => ?_
    refine (popDots_rel hd).bind fun m _ ds ds' hds => ?_
    refine (popNames_rel hd).bind_same fun m _ names => ?_
    split
    · rw [hds.names]
      exact push_next (.names _)
    · exact SteppingRel.defect_bind hd _ _ _ _
  | newValues =>
    refine (operand_same u 2 0).bind_same fun m _ t => ?_
    refine push_next (.values ?_)
    rw [valuesRel_iff, List.forall₂_same]
    intro v hv
    rw [Array.toList_replicate] at hv
    rw [List.eq_of_mem_replicate hv]
    exact .null
  | valueAt =>
    refine (operand_same u 2 0).bind_same fun m _ t => ?_
    refine (popValue_rel hd).bind fun m _ v v' hv => ?_
    refine (popValues_rel hd).bind fun m₁ hm₁ vs vs' hvs => ?_
    have hsize : vs.size = vs'.size := by simpa using hvs.length
    rw [← hsize]
    split
    · refine push_next (.values ?_)
      rw [Array.toList_setIfInBounds, Array.toList_setIfInBounds]
      rw [valuesRel_iff] at hvs ⊢
      exact forall₂_set hvs t (hv.mono hm₁)
    · exact SteppingRel.defect_bind hd _ _ _ _
  | spliceValues =>
    refine (operand_same u 2 0).bind_same fun m _ t => ?_
    refine (popDots_rel hd).bind fun m _ ds ds' hds => ?_
    refine (popValues_rel hd).bind fun m₁ hm₁ vs vs' hvs => ?_
    have hsize : vs.size = vs'.size := by simpa using hvs.length
    rw [← hsize]
    split
    · refine (forceEach_rel hH (hds.mono hm₁)).bind fun m₂ hm₂ es es' hes => ?_
      refine push_next (.values ?_)
      rw [valuesRel_iff] at hvs ⊢
      exact spliced_rel (hvs.imp fun _ _ h => h.mono hm₂) t hes
    · exact SteppingRel.defect_bind hd _ _ _ _
  | applyBuiltin =>
    exact (applyBuiltin_rel hR).bind fun _ _ _ _ hv => pushValue_next hv
  | callPrimitive =>
    refine (nameOperand_rel hd u 0).bind_same fun m _ name => ?_
    exact (callPrimitive_rel hR name).bind fun _ _ _ _ hv => pushValue_next hv
  | elementAt =>
    refine (popInt_rel hd).bind_same fun m _ i => ?_
    refine (popValue_rel hd).bind fun m _ v v' hv => ?_
    exact StateRel.bind (SteppingRel.lift (hv.element_rel i)) fun _ _ _ _ hv => pushValue_next hv
  | length =>
    refine (popValue_rel hd).bind fun m _ v v' hv => ?_
    exact StateRel.bind_same (SteppingRel.lift (.ofSaid (Builtin.lengthOf_related hv)))
      fun _ _ i => push_next (.int i)
  | addInt =>
    refine (popInt_rel hd).bind_same fun m _ b => ?_
    refine (popInt_rel hd).bind_same fun m _ a => ?_
    cases Value.int32? (a.toInt + b.toInt) with
    | some i => exact push_next (.int i)
    | none => exact SteppingRel.fail_bind id _ _
  | greaterEqual =>
    refine (popValue_rel hd).bind fun m _ b b' hb => ?_
    refine StateRel.bind (SteppingRel.lift (.ofSaid (hb.asDouble ">="))) fun m₁ hm₁ _ _ _ => ?_
    refine (popValue_rel hd).bind fun m₂ hm₂ a a' ha => ?_
    have hle := Nat.le_trans hm₁ hm₂
    exact StateRel.bind_same (SteppingRel.lift (.ofSaid (ha.atLeast (hb.mono hle))))
      fun _ _ t => pushValue_next (.logical t)
  | makeClosure =>
    refine (closureOperand_rel hd u).bind_same fun m _ f => ?_
    refine (popEnv_rel hd).bind_same fun m _ e => ?_
    exact pushValue_next (.closure (hR.function f) (hT.valid e))
  | truthy =>
    refine (popValue_rel hd).bind fun m _ v v' hv => ?_
    exact StateRel.bind_same (SteppingRel.lift (.ofSaid hv.truthy)) fun _ _ _ => push_next (.int _)
  | boxInt =>
    refine (popInt_rel hd).bind_same fun m _ i => ?_
    exact pushValue_next (.int i)
  | unboxInt =>
    refine (popValue_rel hd).bind fun m _ v v' hv => ?_
    exact StateRel.bind_same (SteppingRel.lift (.ofSaid (hv.asInt "integer operand")))
      fun _ _ i => push_next (.int i)
  | ret =>
    refine (popValue_rel hd).bind fun m _ v v' hv => ?_
    exact StateRel.pure fun _ hm => .ret (hv.mono hm)

/-! ## Runs -/

end Machine

/-- Larger and larger bounds. -/
def Unbounded (g : Nat → Nat) : Prop := ∀ i, ∃ m, ∀ k ≥ m, i ≤ g k

lemma Unbounded.id : Unbounded fun k => k := fun i => ⟨i, fun _ hk => hk⟩

/-- Bounds on the steps of the second run, for a bound on those of the first one: the same one, or
larger and larger ones if the first run may use up its bound. -/
def World.Bounds (W : World) (n : Nat) (g : Nat → Nat) : Prop :=
  (W.cut ∧ Unbounded g) ∨ (¬ W.cut ∧ ∀ k, g k = n)

namespace World.Bounds

variable {g : Nat → Nat}

lemma const (hc : ¬ W.cut) (n : Nat) : W.Bounds n fun _ => n := .inr ⟨hc, fun _ => rfl⟩

lemma unbounded (h : W.Bounds n g) (hc : W.cut) : Unbounded g := by
  rcases h with ⟨-, h⟩ | ⟨hn, -⟩
  · exact h
  · exact absurd hc hn

/-- One step less. -/
lemma pred (h : W.Bounds (n + 1) g) : W.Bounds n fun k => g k - 1 := by
  rcases h with ⟨hc, h⟩ | h
  · refine .inl ⟨hc, fun i => ?_⟩
    obtain ⟨m, hm⟩ := h (i + 1)
    exact ⟨m, fun k hk => Nat.le_sub_of_add_le (hm k hk)⟩
  · exact .inr ⟨h.1, fun k => congrArg (· - 1) (h.2 k)⟩

/-- Large bounds leave a step to take. -/
lemma succ (h : W.Bounds (n + 1) g) : ∃ m, ∀ k ≥ m, g k = g k - 1 + 1 := by
  rcases h with ⟨-, h⟩ | ⟨-, h⟩
  · obtain ⟨m, hm⟩ := h 1
    exact ⟨m, fun k hk => (Nat.sub_add_cancel (hm k hk)).symm⟩
  · exact ⟨0, fun k _ => by rw [h k]; rfl⟩

end World.Bounds

/-- Only the results with large bounds matter. -/
lemma Matches.eventually {α β : Type} {R : Nat → α → β → Prop} {s t : Store} {r : Result α}
    {B B' : Nat → Eval β} (h : Matches W R s t r B) {m : Nat} (hB : ∀ k ≥ m, B' k t = B k t) :
    Matches W R s t r B' := by
  have hsettles : ∀ {r}, Settles B t r → Settles B' t r := by
    rintro r ⟨j, hj⟩
    exact ⟨max m j, fun k hk => (hB k (by omega)).trans (hj k (by omega))⟩
  cases h with
  | excused hr hh => exact .excused hr hh
  | dropped hB he => exact .dropped (hsettles hB) he
  | same hB hr => exact .same (hsettles hB) hr

namespace Machine

/-- One step of a run that may be traced. -/
lemma run_succ (o : RuntimeOptions) (H : Host) (u : CodeUnit) (env : EnvId) (n : Nat)
    (M : Machine) :
    run o H u env (n + 1) M = match u.code[M.position]? with
      | none => Eval.fail (.internal (.ranPast u.name))
      | some byte =>
        match Opcode.ofByte? byte with
        | none => Eval.fail (.internal (.unknownOpcode byte.toNat))
        | some op => (if o.trace then trace u op M else pure ()) >>= fun _ => do
          let (transfer, M) ← step o.maxDepth H u env op M
          match transfer with
          | .next => run o H u env n { M with position := M.position + op.size }
          | .jump target => run o H u env n { M with position := target }
          | .ret v => return v := by
  rw [run]
  cases u.code[M.position]? with
  | none => rfl
  | some byte =>
    dsimp only
    cases Opcode.ofByte? byte with
    | none => rfl
    | some op => cases o.trace <;> rfl

/-- An instruction that can be read can be traced. -/
lemma trace_apply {u : CodeUnit} {op : Opcode} {M : Machine}
    (h : (u.code.readOperands? op.widths (M.position + 1)).isSome) (s : Store) :
    ∃ journal, trace u op M s = .ok () { s with journal } := by
  obtain ⟨operands, ho⟩ := Option.isSome_iff_exists.1 h
  unfold trace traceLine?
  rw [ho]
  exact ⟨_, rfl⟩

/-- An instruction that cannot be read breaks off the trace. -/
lemma trace_abort {u : CodeUnit} {op : Opcode} {M : Machine}
    (h : u.code.readOperands? op.widths (M.position + 1) = none) (s : Store) :
    trace u op M s = .error .abort s := by
  unfold trace traceLine?
  rw [h]
  rfl

/-- Either both runs are traced or none, or execution only meets instructions that can be read. -/
def Traceable (u : CodeUnit) (o o' : RuntimeOptions) (B : Nat → Prop) : Prop :=
  (o.trace = o'.trace ∧ ∀ p, B p) ∨ u.Steps B

lemma trace_rel {u : CodeUnit} {o o' : RuntimeOptions} {B : Nat → Prop} {p : Nat}
    (ht : Traceable u o o' B) {op : Opcode} (hop : u.code[p]?.bind Opcode.ofByte? = some op)
    (hB : B p) {M M' : Machine} (hM : MachineRel W n p M M') :
    EvalRel W n (fun _ _ _ => True) (if o.trace then trace u op M else pure ())
      fun _ => if o'.trace then trace u op M' else pure () := by
  have hjournal : ∀ {s t : Store} (j j' : Journal), StoreRel W s t →
      StoreRel W { s with journal := j } { t with journal := j' } := fun _ _ hst =>
    hst.of_eq rfl rfl hst.promises hst.depth
  have hgrows : ∀ (s : Store) (j : Journal), s.Grows W { s with journal := j } :=
    fun _ _ => .of_eq rfl
  intro s t hst hn
  by_cases hr : (u.code.readOperands? op.widths (p + 1)).isSome
  · have hdone : ∀ (b : Bool) (M : Machine), M.position = p → ∀ s,
        ∃ journal, (if b then trace u op M else pure () : Eval Unit) s
          = .ok () { s with journal } := by
      intro b M hp s
      cases b with
      | false => exact ⟨s.journal, rfl⟩
      | true => exact trace_apply (by rwa [hp]) s
    obtain ⟨j, hj⟩ := hdone o.trace M hM.left s
    obtain ⟨j', hj'⟩ := hdone o'.trace M' hM.right t
    rw [hj]
    exact .same ⟨0, fun _ _ => hj'⟩ (.ok trivial (hjournal j j' hst) (hgrows s j) (hgrows t j'))
  · rcases ht with ⟨htrace, -⟩ | hsteps
    · rw [htrace]
      cases o'.trace with
      | false => exact .same (.const _ t) (.ok trivial hst (.refl s) (.refl t))
      | true =>
        have hnone : u.code.readOperands? op.widths (p + 1) = none := by simpa using hr
        have hleft := trace_abort (M := M) (by rwa [hM.left]) s
        have hright := trace_abort (M := M') (by rwa [hM.right]) t
        simp only [if_true]
        rw [hleft]
        exact .same ⟨0, fun _ _ => hright⟩ (.error (.refl False.elim) hst (.refl s) (.refl t))
    · rcases hsteps.reads p hB with hend | ⟨op', hop', hread, -, -⟩
      · simp [hend] at hop
      · cases hop.symm.trans hop'
        exact absurd hread hr

/-- A unit gives related values on both hosts. -/
theorem run_rel (hR : W.Reflexive) (hW : W.Lawful) (env : EnvId) {u : CodeUnit}
    {o o' : RuntimeOptions}
    (hdepth : o.maxDepth = o'.maxDepth) {B : Nat → Prop} (ht : Traceable u o o' B)
    (hH : HostRel W H H') {b : Nat} {g : Nat → Nat} (hg : W.Bounds b g) {p : Nat}
    (hB : B p) {M M' : Machine} (hM : MachineRel W n p M M') :
    EvalRel W n (ValueRel W) (run o H u env b M) fun k => run o' (H' k) u env (g k) M' := by
  induction b generalizing n g p M M' with
  | zero =>
    intro s t hst hn
    rcases hg with ⟨hc, -⟩ | ⟨-, hg⟩
    · exact .excused rfl hc
    · refine .same ⟨0, fun k _ => ?_⟩ (.error (.refl False.elim) hst (.refl s) (.refl t))
      dsimp only
      rw [hg k]
      rfl
  | succ b ih =>
    obtain ⟨m₀, hm₀⟩ := hg.succ
    have hsucc : EvalRel W n (ValueRel W) (run o H u env (b + 1) M)
        fun k => run o' (H' k) u env (g k - 1 + 1) M' := by
      simp only [run_succ, hM.left, hM.right]
      cases hbyte : u.code[p]? with
      | none => exact EvalRel.defect hR.defects _ _
      | some byte =>
        dsimp only
        cases hop : Opcode.ofByte? byte with
        | none => exact EvalRel.defect hR.defects _ _
        | some op =>
          have hbind : u.code[p]?.bind Opcode.ofByte? = some op := by rw [hbyte]; exact hop
          have hstay : B (p + op.size) ∧
              (op.isJump = true → ∀ t, u.code.operand? p 2 0 = some t → B t) := by
            rcases ht with ⟨-, hall⟩ | hsteps
            · exact ⟨hall _, fun _ t _ => hall t⟩
            · rcases hsteps.reads p hB with hend | ⟨op', hop', -, hnext, hjump⟩
              · rw [hend] at hbyte
                cases hbyte
              · cases hbind.symm.trans hop'
                exact ⟨hnext, hjump⟩
          dsimp only
          refine (trace_rel ht hbind hB hM).bind fun m hm _ _ _ => ?_
          rw [hdepth]
          refine EvalRel.bind (step_rel hR hW hH u op M M' (hM.mono hm)) fun m₁ hm₁ x x' hx => ?_
          obtain ⟨tr, N⟩ := x
          obtain ⟨tr', N'⟩ := x'
          obtain ⟨htr, hN⟩ := hx
          dsimp only at htr hN
          cases htr with
          | ret hv => exact EvalRel.pure fun _ hk => hv.mono hk
          | next =>
            refine ih hg.pred hstay.1 ⟨?_, ?_, hN.stack, hN.slots⟩
            · exact congrArg (· + op.size) hN.left
            · exact congrArg (· + op.size) hN.right
          | jump hjump hoperand =>
            exact ih hg.pred (hstay.2 hjump _ hoperand) ⟨rfl, rfl, hN.stack, hN.slots⟩
    intro s t hst hn
    refine (hsucc s t hst hn).eventually (m := m₀) fun k hk => ?_
    show run o' (H' k) u env (g k) M' t = run o' (H' k) u env (g k - 1 + 1) M' t
    rw [← hm₀ k hk]

/-- Machines start alike. -/
lemma start_rel (u : CodeUnit) (env : EnvId) :
    MachineRel W n 0 (.start u env) (.start u env) where
  left := rfl
  right := rfl
  stack := .nil
  slots := by
    have hempty : ArrayRel (WordRel W n) (Array.replicate (max u.slots firstLocalSlot) Word.empty)
        (Array.replicate (max u.slots firstLocalSlot) Word.empty) := by
      refine ⟨rfl, fun i w w' hw hw' => ?_⟩
      rw [Array.getElem?_replicate] at hw hw'
      split at hw
      · cases hw
        rw [if_pos ‹_›] at hw'
        cases hw'
        exact .empty
      · cases hw
    exact (hempty.setIfInBounds contextSlot .context).setIfInBounds environmentSlot (.env env)

end Machine

end CallByNeed
