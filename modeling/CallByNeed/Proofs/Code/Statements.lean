import CallByNeed.Proofs.Code.Operand

/-!
# The code of statements

What the code of a statement does is where it leads: behind itself, to a label, or out of the unit
(`Leads`). A counter that is increased in place and a native comparison do what the operands they
stand for would do, since a slot for native integers keeps integers only.
-/

namespace CallByNeed

open CallByNeed.Flow (Term Thunk Procedure NodeId CallSite Action Label Target Exit)

/-! ## Where code leads -/

/-- The label is bound to an offset. -/
def Assembly.LabelAt (z : Assembly) (l : Label) (t : Nat) : Prop :=
  ∃ i : Nat, z.jumps.labels[l.id]? = some i ∧ z.jumps.position? ⟨i⟩ = some t

/-- A label is bound to one offset. -/
lemma Assembly.LabelAt.unique {z : Assembly} {l : Label} {t t' : Nat} (h : z.LabelAt l t)
    (h' : z.LabelAt l t') : t = t' := by
  obtain ⟨i, hi, ht⟩ := h
  obtain ⟨i', hi', ht'⟩ := h'
  rw [hi] at hi'
  cases hi'
  rw [ht] at ht'
  exact Option.some.inj ht'

/-- A label that is bound is one of those that were placed. -/
lemma Assembly.Binds.mem {z : Assembly} {placed : List Label} (h : z.Binds placed) {l : Label}
    {t : Nat} (hl : z.LabelAt l t) : l ∈ placed := by
  obtain ⟨i, hi, ht⟩ := hl
  obtain ⟨⟨id⟩, hmem, hid⟩ := h _ _ _ hi ht
  obtain ⟨id'⟩ := l
  obtain rfl : id = id' := hid
  exact hmem

/-- The unit gets to an instruction that jumps to `t` and leaves nothing on the stack. -/
def Site.Jumps (X : Site) (m : Machine) (s : Store) (t : Nat) (S : Array Word) (s' : Store) : Prop :=
  ∃ op m₁ m₂ s₁, X.Goes m s m₁ s₁ ∧ X.unit.code[m₁.position]?.bind Opcode.ofByte? = some op ∧
    X.step op m₁ s₁ = .ok (.jump t, m₂) s' ∧ m₂.stack = [] ∧ m₂.slots = S

/-- A path that comes first. -/
lemma Site.Goes.jumps {X : Site} {m m' : Machine} {s s' s'' : Store} {t : Nat} {S : Array Word}
    (h : X.Goes m s m' s') (h' : X.Jumps m' s' t S s'') : X.Jumps m s t S s'' := by
  obtain ⟨op, m₁, m₂, s₁, hgoes, hjump⟩ := h'
  exact ⟨op, m₁, m₂, s₁, h.trans hgoes, hjump⟩

/-- A run goes on behind a jump. -/
lemma Site.Jumps.advances {X : Site} {m : Machine} {s s' : Store} {t : Nat} {S : Array Word}
    (h : X.Jumps m s t S s') : Advances X.run m s ⟨t, [], S⟩ s' := by
  obtain ⟨op, m₁, ⟨position, stack, slots⟩, s₁, hgoes, hop, hjump, rfl, rfl⟩ := h
  refine hgoes.reaches.advances (.step (X.run_zero _ _) fun n => ?_)
  rw [X.run_succ hop, hjump]

/-- The code from an offset on, begun with the words `pre` and nothing below, carries out an action
that leads elsewhere: behind the code at `next`, to where a label is bound, or out of the unit. -/
def Leads (X : Site) (z : Assembly) (p : Nat) (pre : List Word) (A : Action Exit) (next : Nat) :
    Prop :=
  ∀ S F s, Holds X.slots X.env F S →
    match A F s with
    | .ok (.next, F') s' => ∃ S', Holds X.slots X.env F' S' ∧
        X.Goes ⟨p, pre, S⟩ s ⟨next, [], S'⟩ s'
    | .ok (.jump l, F') s' => ∃ t S', z.LabelAt l t ∧ Holds X.slots X.env F' S' ∧
        X.Jumps ⟨p, pre, S⟩ s t S' s'
    | .ok (.ret v, _) s' => X.Halts ⟨p, pre, S⟩ s (.ok v s')
    | .error h s' => X.Halts ⟨p, pre, S⟩ s (.error h s')

namespace Leads

variable {β : Type} {X : Site} {z : Assembly} {p q next : Nat} {pre : List Word}
  {A : Action Exit}

/-- Code that leads nowhere else. -/
lemma done : Leads X z p [] (pure .next) p :=
  fun S _ s hF => ⟨S, hF, .refl _ s⟩

/-- One action first, whose words the rest finds. -/
lemma andThen {C : Action β} {post : β → Nat → List Word → Prop} {B : β → Action Exit}
    (h : Tracks X p pre C post)
    (h' : ∀ b q ws, post b q ws → Leads X z q ws (B b) next) :
    Leads X z p pre (C >>= B) next := by
  intro S F s hF
  have hC := h [] S F s hF
  rw [List.append_nil] at hC
  rw [Action.bind_apply]
  cases hr : C F s with
  | error e s' =>
    simp only [hr] at hC ⊢
    exact hC
  | ok r s' =>
    obtain ⟨b, F'⟩ := r
    simp only [hr] at hC ⊢
    obtain ⟨q, ws, S', hb, hF', hgoes⟩ := hC
    rw [List.append_nil] at hgoes
    have hB := h' b q ws hb S' F' s' hF'
    cases hr' : B b F' s' with
    | error e s'' =>
      simp only [hr'] at hB ⊢
      exact hgoes.halts hB
    | ok r' s'' =>
      obtain ⟨exit, F''⟩ := r'
      simp only [hr'] at hB ⊢
      cases exit with
      | next =>
        obtain ⟨S'', hF'', hgoes'⟩ := hB
        exact ⟨S'', hF'', hgoes.trans hgoes'⟩
      | jump l =>
        obtain ⟨t, S'', ht, hF'', hjump⟩ := hB
        exact ⟨t, S'', ht, hF'', hgoes.jumps hjump⟩
      | ret v => exact hgoes.halts hB

/-- The action may be replaced by one that does the same. -/
lemma congr {A' : Action Exit} (h : Leads X z p pre A next) (heq : A' = A) :
    Leads X z p pre A' next := heq ▸ h

/-- Code that only rearranges words comes first. -/
lemma first {mid : List Word}
    (h : Tracks X p pre (pure ()) (Tracks.At q fun _ => mid)) (h' : Leads X z q mid A next) :
    Leads X z p pre A next := by
  refine (andThen h fun _ r ws hb => ?_).congr (pure_bind () fun _ => A).symm
  obtain ⟨rfl, rfl⟩ := hb
  exact h'

/-- One action that leads on, and then another one. -/
lemma bind {B : Action Exit} (h : Leads X z p pre A q) (h' : Leads X z q [] B next) :
    Leads X z p pre (do
      match ← A with
      | .next => B
      | exit => return exit) next := by
  intro S F s hF
  have hA := h S F s hF
  rw [Action.bind_apply]
  cases hr : A F s with
  | error e s' =>
    simp only [hr] at hA ⊢
    exact hA
  | ok r s' =>
    obtain ⟨exit, F'⟩ := r
    simp only [hr] at hA ⊢
    cases exit with
    | next =>
      obtain ⟨S', hF', hgoes⟩ := hA
      have hB := h' S' F' s' hF'
      cases hr' : B F' s' with
      | error e s'' =>
        simp only [hr'] at hB ⊢
        exact hgoes.halts hB
      | ok r' s'' =>
        obtain ⟨exit, F''⟩ := r'
        simp only [hr'] at hB ⊢
        cases exit with
        | next =>
          obtain ⟨S'', hF'', hgoes'⟩ := hB
          exact ⟨S'', hF'', hgoes.trans hgoes'⟩
        | jump l =>
          obtain ⟨t, S'', ht, hF'', hjump⟩ := hB
          exact ⟨t, S'', ht, hF'', hgoes.jumps hjump⟩
        | ret v => exact hgoes.halts hB
    | jump l => exact hA
    | ret v => exact hA

/-- A jump leads to its label. -/
lemma jump {i : Instruction} {l : Label} {t : Nat} (hl : z.LabelAt l t)
    (hi : X.unit.code.Holds p i)
    (h : ∀ S s, X.step i.op ⟨p, pre, S⟩ s = .ok (.jump t, ⟨p, [], S⟩) s) :
    Leads X z p pre (pure (.jump l)) next := by
  intro S F s hF
  exact ⟨t, S, hl, hF, i.op, _, _, s, .refl _ _, hi.op, h S s, rfl, rfl⟩

/-- A return leads out of the unit. -/
lemma ret (h : X.unit.code.Holds p ⟨.ret, []⟩) (v : Value) :
    Leads X z p [.value v] (pure (.ret v)) next := by
  intro S F s hF
  exact ⟨_, s, .ok v s, .refl _ _, .ret h.op rfl, .refl _⟩

/-- A jump that is always taken. -/
lemma goto {l : Label} {t : Nat} (hl : z.LabelAt l t) (h : X.unit.code.Holds p ⟨.jump, [t]⟩) :
    Leads X z p [] (pure (.jump l)) next := by
  refine jump hl h fun S s => ?_
  simp only [Site.step, Machine.step, Machine.bind_apply, Machine.operand_apply h rfl]
  rfl

/-- A jump away if a truth value is false, and one if it is true. -/
lemma choose {yes no : Label} {ty tn : Nat} (hyes : z.LabelAt yes ty) (hno : z.LabelAt no tn)
    (h : X.unit.code.Holds p ⟨.jumpIfZero, [tn]⟩)
    (h' : X.unit.code.Holds (p + Opcode.jumpIfZero.size) ⟨.jump, [ty]⟩) (t : Bool) :
    Leads X z p [.ofBool t] (pure (.jump (if t then yes else no))) next := by
  cases t with
  | true => exact first (Tracks.jumpIfZero h) (goto hyes h')
  | false => exact jump hno h fun S s => Machine.jumpIf_apply h rfl true

/-- A jump away if an integer is less than another one, and one if it is not. -/
lemma compare {yes no : Label} {ty tn : Nat} (hyes : z.LabelAt yes ty) (hno : z.LabelAt no tn)
    (h : X.unit.code.Holds p ⟨.jumpIfIntLess, [tn]⟩)
    (h' : X.unit.code.Holds (p + Opcode.jumpIfIntLess.size) ⟨.jump, [ty]⟩) (a b : Int32) :
    Leads X z p [.int b, .int a] (pure (.jump (if b ≤ a then yes else no))) next := by
  have hiff : ¬ a < b ↔ b ≤ a := Int32.not_lt
  by_cases hlt : a < b
  · rw [if_neg fun hle => hiff.2 hle hlt]
    refine jump hno h fun S s => ?_
    rw [Tracks.step_jumpIfIntLess h, decide_eq_true hlt]
    rfl
  · rw [if_pos (hiff.1 hlt)]
    exact first (Tracks.jumpIfIntLess h hlt) (goto hyes h')

end Leads

/-- What the code of a statement does. -/
def CarriesOut (A : Site → Action Exit) (p q : Nat) (z : Assembly) (u : CodeUnit) : Prop :=
  ∀ X : Site, X.On z u → Leads X z p [] (A X) q

/-- What the code of a statement without transfer does. -/
lemma Carries.out {A : Site → Action Unit} {p q : Nat} {z : Assembly} {u : CodeUnit}
    (h : Carries [] A (fun _ _ => []) p q z u) :
    CarriesOut (fun X => do A X; return .next) p q z u := by
  intro X hX
  refine Leads.andThen (h X hX) ?_
  rintro _ _ _ ⟨rfl, rfl⟩
  exact Leads.done

/-! ## Native integers -/

/-- The slot of an operand for native integers is the slot of its key. -/
lemma Assemble.intSlot?_eq_some {slots : Slots} {t : Term} {slot : Slot}
    (h : Assemble.intSlot? slots t = some slot) :
    ∃ key, t.slotKey? = some key ∧ slots.lookup? key = some slot ∧ slot.kind = .int := by
  unfold Assemble.intSlot? at h
  obtain ⟨key, hkey, h⟩ := Option.bind_eq_some_iff.1 h
  obtain ⟨slot', hslot, h⟩ := Option.bind_eq_some_iff.1 h
  split at h
  · rename_i hkind
    cases h
    exact ⟨key, hkey, hslot, hkind⟩
  · cases h

/-- An operand with a slot reads it, and meets nothing. -/
lemma Flow.Term.of_slotKey? {t : Term} {key : Flow.SlotKey} (h : t.slotKey? = some key) :
    t.visits = [] ∧ ∀ X : Flow.Scene, X.term t = Action.read key := by
  cases t <;> cases h <;> exact ⟨rfl, fun _ => rfl⟩

/-- An operand that is planned as a native integer is one. -/
lemma Assemble.kindOf_eq_int {options : CompilerOptions} {t : Term}
    (h : Assemble.kindOf options t = .int) :
    ∃ A : Flow.Scene → Action Int32, ∀ X : Flow.Scene, X.term t = do
      let n ← A X
      return .int n := by
  unfold Assemble.kindOf at h
  split at h
  · cases t with
    | int n => exact ⟨fun _ => pure n, fun _ => (pure_bind _ _).symm⟩
    | length t =>
      refine ⟨fun X => do
        let v ← X.term t
        Action.lift (Eval.ofExcept (Builtin.lengthOf v)), fun X => ?_⟩
      simp only [Flow.Scene.term, bind_assoc]
    | increment t =>
      refine ⟨fun X => do
        let v ← X.term t
        let n ← Action.lift (Eval.ofExcept (v.asInt "integer operand"))
        Action.lift (Flow.successor n), fun X => ?_⟩
      simp only [Flow.Scene.term, bind_assoc]
    | _ => cases h
  · cases h

/-- The value of such an operand is unboxed as it was boxed. -/
lemma unbox_int {A : Flow.Scene → Action Int32} {t : Term}
    (h : ∀ X : Flow.Scene, X.term t = do
      let n ← A X
      return .int n) (X : Site) : Emits.unbox (fun X => X.term t) X = A X.toScene := by
  unfold Emits.unbox
  dsimp only
  rw [h, bind_assoc]
  have hpure : ∀ n : Int32, (do
      let v ← (pure (.int n) : Action Value)
      Action.lift (Eval.ofExcept (v.asInt "integer operand"))) = pure n := fun n => rfl
  simp only [hpure, bind_pure]

/-! ## Statements -/

namespace Flow.Statement

/-- What a statement meets. -/
def visits : Flow.Statement Term → List Visit
  | .assign _ t | .eval t | .branch t _ _ | .ret t => t.visits
  | .goto _ => []

end Flow.Statement

namespace Emits

variable {nested : Nested} {anon : List Mark}

/-- Increasing a counter in place. -/
lemma incLocal {a : Assembly} {key : Flow.SlotKey} {t : Term} {slot : Slot}
    (h : Assemble.counterInPlace? a.options a.slots key t = some slot) {x : Unit} {a' : Assembly}
    (hc : Assemble.emit .incLocal [slot.index] a = .ok x a') (ha : a.Sound) :
    a.Grows nested t.visits a' ∧ ∀ z u, z.Links u → a'.Extends z →
      Carries [] (fun X => do
        let v ← X.term t
        Action.assign key v) (fun _ _ => []) a.position a'.position z u := by
  cases t with
  | increment counter =>
    simp only [Assemble.counterInPlace?] at h
    split at h
    · rename_i hfast
      obtain ⟨key', hkey, hslot, hkind⟩ := Assemble.intSlot?_eq_some h
      rw [hfast.2] at hkey
      cases hkey
      obtain ⟨hvisits, hterm⟩ := Flow.Term.of_slotKey? hfast.2
      have hemits : Emits nested [] [] (Assemble.emit .incLocal [slot.index]) _ := slotted .incLocal rfl rfl
      obtain ⟨hg, hs⟩ := hemits a x a' hc ha (by simp)
      rw [Flow.Term.visits, hvisits]
      refine ⟨hg, fun z u hz he X hX => ?_⟩
      obtain ⟨hq, hi⟩ := hs z u hz he
      have hlz : X.slots.lookup? key = some slot := by
        rw [hX.slots]
        exact (hg.toExtends.trans he).slots key slot hslot
      have hsound : X.slots.Sound := by
        rw [hX.slots]
        exact hz.sound.slots
      have hact : (do
          let v ← X.term (.increment counter)
          Action.assign key v) = (do
          let v ← Action.read key
          let n ← Action.lift (Eval.ofExcept (v.asInt "integer operand"))
          let m ← Action.lift (Flow.successor n)
          Action.assign key (.int m)) := by
        simp only [Flow.Scene.term, hterm, bind_assoc, pure_bind]
      have hlt := Nat.lt_of_lt_of_le (hsound.range hlz).2 hsound.bound
      obtain rfl := hX.unit
      rw [hq]
      exact Tracks.congr (Tracks.incLocal hsound hlz hkind (hi hlt)) hact
    · cases h
  | _ => cases h

/-- Storing in the slot that was handed out for a key. -/
lemma storeSlot {key : Flow.SlotKey} {options : CompilerOptions} (value : Term) :
    Emits nested anon value.visits (do
        let slot ← Assemble.slotFor key (Assemble.kindOf options value)
        match slot.kind with
        | .int =>
          Assemble.unboxed (Assemble.term nested value)
          Assemble.emit .storeInt [slot.index]
        | .value =>
          Assemble.boxed (Assemble.term nested value)
          Assemble.emit .store [slot.index] : Assemble Unit) (fun _ =>
      Carries [] (fun X => do
        let v ← X.term value
        Action.assign key v) fun _ _ => []) := by
  have hstore : ∀ slot : Slot, Emits nested anon value.visits
      (match slot.kind with
        | .int => do
          Assemble.unboxed (Assemble.term nested value)
          Assemble.emit .storeInt [slot.index]
        | .value => do
          Assemble.boxed (Assemble.term nested value)
          Assemble.emit .store [slot.index] : Assemble Unit) (fun _ p q z u =>
        z.slots.lookup? key = some slot → (slot.kind = .int →
          Assemble.kindOf options value = .int) → z.slots.Sound →
        Carries [] (fun X => do
          let v ← X.term value
          Action.assign key v) (fun _ _ => []) p q z u) := by
    intro slot
    obtain ⟨index, kind⟩ := slot
    cases kind with
    | int =>
      refine (((unboxed (term nested anon value)).seq (slotted .storeInt rfl rfl)).mono ?_).meets (by simp)
      rintro _ p q z u _ ⟨r, hterm, hq, h⟩ hslot hkind hsound X hX
      obtain ⟨A, hA⟩ := Assemble.kindOf_eq_int (hkind rfl)
      have hact : (do
          let v ← X.term value
          Action.assign key v) = (do
          let n ← unbox (fun X => X.term value) X
          Action.assign key (.int n)) := by
        rw [unbox_int hA, hA, bind_assoc]
        rfl
      refine Tracks.congr ((hterm X hX).andThen fun n => ?_) hact
      have hlt := Nat.lt_of_lt_of_le (hsound.range hslot).2 hsound.bound
      rw [← hX.slots] at hslot hsound
      obtain rfl := hX.unit
      rw [hq]
      exact Tracks.store hsound hslot (h hlt) (.int n)
    | value =>
      refine (((boxed (term nested anon value)).seq (slotted .store rfl rfl)).mono ?_).meets (by simp)
      rintro _ p q z u _ ⟨r, hterm, hq, h⟩ hslot hkind hsound X hX
      refine (hterm X hX).andThen fun v => ?_
      have hlt := Nat.lt_of_lt_of_le (hsound.range hslot).2 hsound.bound
      rw [← hX.slots] at hslot hsound
      obtain rfl := hX.unit
      rw [hq]
      exact Tracks.store hsound hslot (h hlt) (.value v)
  refine ((slotFor key (Assemble.kindOf options value)).bind hstore).mono ?_
  rintro _ p q z u hz ⟨slot, _, ⟨rfl, hslot, hkind⟩, hstore⟩
  exact hstore hslot hkind hz.sound.slots

/-- Assigning a slot. -/
lemma assignSlot (key : Flow.SlotKey) (value : Term) :
    Emits nested anon value.visits (Assemble.assignSlot nested key value) (fun _ =>
      Carries [] (fun X => do
        let v ← X.term value
        Action.assign key v) fun _ _ => []) := by
  intro a x a' hc ha hm
  rw [Assemble.assignSlot, Assemble.get_bind_apply] at hc
  cases hcounter : Assemble.counterInPlace? a.options a.slots key value with
  | some slot =>
    rw [hcounter] at hc
    exact incLocal hcounter hc ha
  | none =>
    rw [hcounter] at hc
    exact storeSlot value a x a' hc ha hm

/-- Assigning. -/
lemma assign (target : Target) (value : Term) :
    Emits nested anon value.visits (Assemble.assign nested target value) (fun _ =>
      Carries [] (fun X => do
        let v ← X.term value
        X.store v target) fun _ _ => []) := by
  cases target with
  | temp id => exact assignSlot (.temp id) value
  | «local» id name => exact assignSlot (.local id) value
  | env name =>
    refine (((boxed (term nested anon value)).seq ((nameIndex name).bind fun i =>
      indexed .setVariable rfl rfl)).mono ?_).meets (by simp)
    rintro _ p q z u _ ⟨r, hterm, i, _, ⟨rfl, hi, hc⟩, hq, h⟩ X hX
    refine (hterm X hX).andThen fun v => ?_
    obtain rfl := hX.unit
    rw [hq]
    exact (Site.Does.setVariable (h hi) hc v).tracks

/-- The target of a jump to a label. -/
lemma jumpTo (op : Opcode) (l : Label) (hop : op.isJump = true) :
    Emits nested anon [] (Assemble.resolve l >>= fun m => Assemble.jump op m) (fun _ p q z u =>
      q = p + op.size ∧ ∃ t, z.LabelAt l t ∧ u.code.Holds p ⟨op, [t]⟩) := by
  refine ((resolve l).bind fun m => jump op m hop).mono ?_
  rintro _ p q z u _ ⟨m, _, ⟨rfl, hl⟩, hq, t, ht, h⟩
  exact ⟨hq, t, ⟨m.index, hl, ht⟩, h⟩

/-- What the two targets of a branch are bound to. -/
lemma targets {β : Type} {vs : List Visit} {yes no : Label} {d : Mark → Mark → Assemble β}
    {S : β → Nat → Nat → Assembly → CodeUnit → Prop}
    (h : ∀ my mn : Mark, Emits nested anon vs (d my mn) (fun y p q z u =>
      z.jumps.labels[yes.id]? = some my.index → z.jumps.labels[no.id]? = some mn.index →
        S y p q z u)) :
    Emits nested anon vs (do
      let my ← Assemble.resolve yes
      let mn ← Assemble.resolve no
      d my mn) S := by
  refine ((resolve yes).bind fun my => (resolve no).bind fun mn => h my mn).mono ?_
  rintro y p q z u _ ⟨my, _, ⟨rfl, hyes⟩, mn, _, ⟨rfl, hno⟩, hs⟩
  exact hs hyes hno

/-- The meaning of a branch. -/
def branchOf (condition : Term) (yes no : Label) (X : Site) : Action Exit := do
  let v ← X.term condition
  let t ← Action.lift (Eval.ofExcept v.truthy)
  return .jump (if t then yes else no)

/-- Branching on a value. -/
lemma branchValue (condition : Term) (yes no : Label) (my mn : Mark) :
    Emits nested anon condition.visits (do
        Assemble.boxed (Assemble.term nested condition)
        Assemble.emit .truthy []
        Assemble.jump .jumpIfZero mn
        Assemble.jump .jump my : Assemble Unit) (fun _ p q z u =>
      z.jumps.labels[yes.id]? = some my.index → z.jumps.labels[no.id]? = some mn.index →
        CarriesOut (branchOf condition yes no) p q z u) := by
  refine (((boxed (term nested anon condition)).seq ((plain .truthy rfl rfl).seq
    ((jump .jumpIfZero mn rfl).seq (jump .jump my rfl)))).mono ?_).meets (by simp)
  rintro _ p q z u _ ⟨r₁, hterm, r₂, ⟨hr₂, h⟩, r₃, ⟨hr₃, tn, htn, hno⟩, -, ty, hty, hyes⟩
    hly hln X hX
  refine Leads.andThen (hterm X hX) ?_
  rintro v _ _ ⟨rfl, rfl⟩
  obtain rfl := hX.unit
  refine Leads.andThen ((Site.Does.truthy h v).tracks) ?_
  rintro t _ _ ⟨rfl, rfl⟩
  rw [← hr₂]
  rw [hr₃] at hyes
  exact Leads.choose ⟨_, hly, hty⟩ ⟨_, hln, htn⟩ hno hyes t

/-- The keys and slots of two operands that are compared natively. -/
lemma nativeComparison?_eq_some {options : CompilerOptions}
    {slots : Slots} {t : Term} {a b : Slot}
    (h : Assemble.nativeComparison? options slots t = some (a, b)) :
    ∃ left right, t = .atLeast left right ∧ Assemble.intSlot? slots left = some a ∧
      Assemble.intSlot? slots right = some b := by
  cases t with
  | atLeast left right =>
    simp only [Assemble.nativeComparison?] at h
    split at h
    · obtain ⟨a', ha, h⟩ := Option.bind_eq_some_iff.1 h
      obtain ⟨b', hb, h⟩ := Option.bind_eq_some_iff.1 h
      cases h
      exact ⟨left, right, rfl, ha, hb⟩
    · cases h
  | _ => cases h

/-- Branching on a native comparison. -/
lemma branchInts {left right : Term} {kl kr : Flow.SlotKey} {a b : Slot}
    (hl : left.slotKey? = some kl) (hr : right.slotKey? = some kr) (yes no : Label)
    (my mn : Mark) :
    Emits nested anon [] (do
        Assemble.emit .loadInt [a.index]
        Assemble.emit .loadInt [b.index]
        Assemble.jump .jumpIfIntLess mn
        Assemble.jump .jump my : Assemble Unit) (fun _ p q z u =>
      (z.slots.lookup? kl = some a ∧ a.kind = .int) →
      (z.slots.lookup? kr = some b ∧ b.kind = .int) →
      z.slots.Sound →
      z.jumps.labels[yes.id]? = some my.index → z.jumps.labels[no.id]? = some mn.index →
        CarriesOut (branchOf (.atLeast left right) yes no) p q z u) := by
  refine ((slotted .loadInt rfl rfl).seq ((slotted .loadInt rfl rfl).seq
    ((jump .jumpIfIntLess mn rfl).seq (jump .jump my rfl)))).mono ?_
  rintro _ p q z u _ ⟨r₁, ⟨hr₁, h₁⟩, r₂, ⟨hr₂, h₂⟩, r₃, ⟨hr₃, tn, htn, hno⟩, -, ty, hty, hyes⟩
    ⟨hla, hka⟩ ⟨hlb, hkb⟩ hsound hly hln X hX
  have hact : branchOf (.atLeast left right) yes no X = (do
      let a ← Action.read kl
      let b ← Action.read kr
      let t ← Action.lift (Eval.ofExcept (a.atLeast b))
      return .jump (if t then yes else no)) := by
    have htruthy : ∀ t : Bool, (do
        let t ← Action.lift (Eval.ofExcept (Value.logical t).truthy)
        return Exit.jump (if t then yes else no) : Action Exit)
          = pure (.jump (if t then yes else no)) := fun t => rfl
    simp only [branchOf, Flow.Scene.term, (Flow.Term.of_slotKey? hl).2,
      (Flow.Term.of_slotKey? hr).2, bind_assoc, pure_bind, htruthy]
  have hlta := Nat.lt_of_lt_of_le (hsound.range hla).2 hsound.bound
  have hltb := Nat.lt_of_lt_of_le (hsound.range hlb).2 hsound.bound
  rw [← hX.slots] at hla hlb
  obtain rfl := hX.unit
  obtain ⟨ia, _⟩ := a
  obtain ⟨ib, _⟩ := b
  obtain rfl := hka
  obtain rfl := hkb
  refine (Leads.andThen (Tracks.load hla (h₁ hlta)) ?_).congr hact
  rintro va _ _ ⟨rfl, _, rfl, ⟨⟩⟩
  rw [show p + (Tracks.loadOp .int).size = r₁ from hr₁.symm]
  refine Leads.andThen ((Tracks.load hlb (h₂ hltb)).below _) ?_
  rintro vb _ _ ⟨_, ⟨rfl, _, rfl, ⟨⟩⟩, rfl⟩
  rename_i n m
  rw [show r₁ + (Tracks.loadOp .int).size = r₂ from hr₂.symm]
  rw [hr₃] at hyes
  refine (Leads.compare ⟨_, hly, hty⟩ ⟨_, hln, htn⟩ hno hyes n m).congr ?_
  show (pure (.jump (if decide (m ≤ n) = true then yes else no)) : Action Exit) = _
  simp only [decide_eq_true_eq]

/-- A branch. -/
lemma branch (condition : Term) (yes no : Label) :
    Emits nested anon condition.visits (Assemble.branch nested condition yes no) (fun _ =>
      CarriesOut (branchOf condition yes no)) := by
  refine targets fun my mn => ?_
  intro a x a' hc ha hm
  rw [Assemble.get_bind_apply] at hc
  cases hn : Assemble.nativeComparison? a.options a.slots condition with
  | none =>
    rw [hn] at hc
    exact branchValue condition yes no my mn a x a' hc ha hm
  | some slots =>
    obtain ⟨b, c⟩ := slots
    rw [hn] at hc
    obtain ⟨left, right, rfl, hb, hc'⟩ := nativeComparison?_eq_some hn
    obtain ⟨kl, hkl, hlb, hkb⟩ := Assemble.intSlot?_eq_some hb
    obtain ⟨kr, hkr, hlc, hkc⟩ := Assemble.intSlot?_eq_some hc'
    obtain ⟨hg, hs⟩ := branchInts hkl hkr yes no my mn a x a' hc ha hm
    rw [Flow.Term.visits, (Flow.Term.of_slotKey? hkl).1, (Flow.Term.of_slotKey? hkr).1]
    refine ⟨hg, fun z u hz he hly hln => ?_⟩
    have hext := hg.toExtends.trans he
    exact hs z u hz he ⟨hext.slots _ _ hlb, hkb⟩ ⟨hext.slots _ _ hlc, hkc⟩ hz.sound.slots hly hln

/-- A statement. -/
theorem statement (s : Flow.Statement Term) :
    Emits nested anon s.visits (Assemble.statement nested s) (fun _ =>
      CarriesOut fun X => X.statement s) := by
  cases s with
  | assign target value =>
    refine (assign target value).mono fun _ p q z u _ h X hX => ?_
    refine (h.out X hX).congr ?_
    simp only [Flow.Scene.statement, bind_assoc]
  | eval value =>
    refine (((term nested anon value).bind fun _ => plain .pop rfl rfl).mono ?_).meets (by
      simp [Flow.Statement.visits])
    rintro _ p q z u _ ⟨kind, r, hterm, hq, h⟩ X hX
    refine Leads.andThen (hterm X hX) ?_
    rintro v _ _ ⟨rfl, w, rfl, -⟩
    obtain rfl := hX.unit
    refine Leads.first ((Site.Does.pop h w).moves) ?_
    rw [← hq]
    exact Leads.done
  | goto l =>
    refine (jumpTo .jump l rfl).mono ?_
    rintro _ p q z u _ ⟨hq, t, hl, h⟩ X hX
    obtain rfl := hX.unit
    exact Leads.goto hl h
  | branch condition yes no => exact branch condition yes no
  | ret value =>
    refine (((boxed (term nested anon value)).seq (plain .ret rfl rfl)).mono ?_).meets (by
      simp [Flow.Statement.visits])
    rintro _ p q z u _ ⟨r, hterm, hq, h⟩ X hX
    refine Leads.andThen (hterm X hX) ?_
    rintro v _ _ ⟨rfl, rfl⟩
    obtain rfl := hX.unit
    exact Leads.ret h v

/-- Statements in order. -/
theorem statements (ss : List (Flow.Statement Term)) :
    Emits nested anon (ss.flatMap Flow.Statement.visits) (Assemble.statements nested ss) (fun _ =>
      CarriesOut fun X => X.statements ss) := by
  induction ss with
  | nil =>
    refine (nothing ()).mono ?_
    rintro _ p q z u _ ⟨-, rfl⟩ X hX
    exact Leads.done
  | cons s rest ih =>
    refine ((statement s).seq ih).mono ?_
    rintro _ p q z u _ ⟨r, hs, hrest⟩ X hX
    refine ((hs X hX).bind (hrest X hX)).congr ?_
    refine congrArg (X.statement s >>= ·) (funext fun exit => ?_)
    cases exit <;> rfl

end Emits

end CallByNeed
