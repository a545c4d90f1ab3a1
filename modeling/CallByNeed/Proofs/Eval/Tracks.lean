import CallByNeed.Eval.Execution
import CallByNeed.Proofs.Code.Decoding
import CallByNeed.Proofs.Eval.Runs
import CallByNeed.Proofs.Flow.Semantics

/-!
# Code that carries out an action

`Tracks X p pre A post` says that the code of the unit from offset `p` on, begun with the words
`pre` on top of the stack, carries out the action `A` on frames: if the action has a result, the
code gets to an offset and leaves words that `post` allows, and if it stops, so does the code. What
lies below on the stack is never touched.

The code gets there by executing one instruction after the other (`Site.Goes`), and no jump on its
way leaves the stack empty: between blocks it is empty, so that such code does not leave its block.

The slots of the machine keep the frame of the action (`Holds`): a slot for native integers keeps
the integer that the frame has as a value.
-/

namespace CallByNeed

open CallByNeed.Flow (Frame Action Scene)

/-! ## Slots of the machine -/

/-- A slot of a kind keeps what the frame has for its key. -/
inductive Word.Keeps : SlotKind → Option Value → Word → Prop where
  | empty (kind : SlotKind) : Keeps kind none .empty
  | int (n : Int32) : Keeps .int (some (.int n)) (.int n)
  | value (v : Value) : Keeps .value (some v) (.value v)

/-- The word in the work slot. -/
def workWord : Option ArgList → Word
  | none => .empty
  | some dots => .value (.dots dots)

/-- The slots of the machine keep the frame. -/
structure Holds (slots : Slots) (env : EnvId) (F : Frame) (S : Array Word) : Prop where
  context : S[contextSlot]? = some .context
  environment : S[environmentSlot]? = some (.env env)
  work : S[workSlot]? = some (workWord F.work)
  slot : ∀ key slot, slots.lookup? key = some slot →
    ∃ w, S[slot.index]? = some w ∧ Word.Keeps slot.kind (F.slots key) w

/-! ## Executing one instruction -/

/-- A unit that is being executed, with the slots that were handed out for it. -/
structure Site extends Scene where
  unit : CodeUnit
  slots : Slots

namespace Site

/-- The machine of the unit, without tracing. -/
def run (X : Site) : Nat → Machine → Eval Value :=
  Machine.run ⟨X.limit, false⟩ X.host X.unit X.env

/-- One instruction. -/
def step (X : Site) : Opcode → Stepping Machine.Transfer :=
  Machine.step X.limit X.host X.unit X.env

variable {X : Site} {op : Opcode} {m m' : Machine} {s s' : Store}

/-- Without a bound nothing is executed. -/
lemma run_zero (X : Site) (m : Machine) (s : Store) : Exhausts (X.run 0 m s) := ⟨s, rfl⟩

/-- The machine executes the instruction at its position. -/
lemma run_succ (hop : X.unit.code[m.position]?.bind Opcode.ofByte? = some op) (n : Nat) :
    X.run (n + 1) m s = match X.step op m s with
      | .ok (.next, m) s => X.run n { m with position := m.position + op.size } s
      | .ok (.jump target, m) s => X.run n { m with position := target } s
      | .ok (.ret v, _) s => .ok v s
      | .error h s => .error h s := by
  obtain ⟨byte, hbyte, hof⟩ := Option.bind_eq_some_iff.1 hop
  show Machine.run _ _ _ _ (n + 1) m s = _
  simp only [Machine.run, hbyte, hof]
  show EStateM.bind (X.step op m) _ s = _
  unfold EStateM.bind
  cases X.step op m s with
  | error h s => rfl
  | ok r s =>
    obtain ⟨t, m⟩ := r
    cases t <;> rfl

/-! ## Paths -/

/-- The unit gets from one machine to another one, executing one instruction after the other. No jump
leaves the stack empty. -/
inductive Goes (X : Site) : Machine → Store → Machine → Store → Prop where
  | refl (m : Machine) (s : Store) : Goes X m s m s
  | next {op : Opcode} {m m₁ m' : Machine} {s s₁ s' : Store}
    (hop : X.unit.code[m.position]?.bind Opcode.ofByte? = some op)
    (h : X.step op m s = .ok (.next, m₁) s₁)
    (rest : Goes X { m₁ with position := m₁.position + op.size } s₁ m' s') : Goes X m s m' s'
  | jump {op : Opcode} {t : Nat} {m m₁ m' : Machine} {s s₁ s' : Store}
    (hop : X.unit.code[m.position]?.bind Opcode.ofByte? = some op)
    (h : X.step op m s = .ok (.jump t, m₁) s₁) (hne : m₁.stack ≠ [])
    (rest : Goes X { m₁ with position := t } s₁ m' s') : Goes X m s m' s'

/-- The instruction of a machine is the last one, with such a result. -/
inductive Stops (X : Site) (m : Machine) (s : Store) : Result Value → Prop where
  | ret {op : Opcode} {v : Value} {m₁ : Machine} {s₁ : Store}
    (hop : X.unit.code[m.position]?.bind Opcode.ofByte? = some op)
    (h : X.step op m s = .ok (.ret v, m₁) s₁) : Stops X m s (.ok v s₁)
  | error {op : Opcode} {e : Halt} {s₁ : Store}
    (hop : X.unit.code[m.position]?.bind Opcode.ofByte? = some op)
    (h : X.step op m s = .error e s₁) : Stops X m s (.error e s₁)

/-- The unit gets to an instruction that is the last one, with a result that agrees with a known
one. -/
def Halts (X : Site) (m : Machine) (s : Store) (r : Result Value) : Prop :=
  ∃ m' s' r', X.Goes m s m' s' ∧ X.Stops m' s' r' ∧ Agrees r' r

namespace Goes

variable {m'' : Machine} {s'' : Store} {r : Result Value}

lemma trans (h : X.Goes m s m' s') (h' : X.Goes m' s' m'' s'') : X.Goes m s m'' s'' := by
  induction h with
  | refl => exact h'
  | next hop h _ ih => exact .next hop h (ih h')
  | jump hop h hne _ ih => exact .jump hop h hne (ih h')

lemma halts (h : X.Goes m s m' s') (h' : X.Halts m' s' r) : X.Halts m s r := by
  obtain ⟨m₁, s₁, r', hgoes, hstops, hr⟩ := h'
  exact ⟨m₁, s₁, r', h.trans hgoes, hstops, hr⟩

/-- One instruction that goes on behind itself. -/
lemma one {m₁ : Machine} {s₁ : Store}
    (hop : X.unit.code[m.position]?.bind Opcode.ofByte? = some op)
    (h : X.step op m s = .ok (.next, m₁) s₁) :
    X.Goes m s { m₁ with position := m₁.position + op.size } s₁ :=
  .next hop h (.refl _ _)

/-- A run goes on along a path. -/
lemma reaches (h : X.Goes m s m' s') : Reaches X.run m s m' s' := by
  induction h with
  | refl => exact .refl _ _ _
  | next hop h _ ih =>
    refine .trans (.step (X.run_zero _ _) fun n => ?_) ih
    rw [X.run_succ hop, h]
  | jump hop h _ _ ih =>
    refine .trans (.step (X.run_zero _ _) fun n => ?_) ih
    rw [X.run_succ hop, h]

end Goes

/-- A run that gets to a last instruction ends there. -/
lemma Halts.ends {r : Result Value} (h : X.Halts m s r) : Ends X.run m s r := by
  obtain ⟨m', s', r', hgoes, hstops, hr⟩ := h
  refine (hgoes.reaches.ends (.step (X.run_zero _ _) fun n => ?_)).agrees hr
  cases hstops with
  | ret hop h =>
    rw [X.run_succ hop, h]
    exact .refl _
  | error hop h =>
    rw [X.run_succ hop, h]
    exact .refl _

/-- An instruction that stops. -/
lemma Halts.one {e : Halt} {s₁ : Store} {r : Result Value}
    (hop : X.unit.code[m.position]?.bind Opcode.ofByte? = some op)
    (h : X.step op m s = .error e s₁) (hr : Agrees (.error e s₁) r) : X.Halts m s r :=
  ⟨m, s, _, .refl _ _, .error hop h, hr⟩

end Site

/-! ## Carrying out actions -/

/-- The code from an offset on carries out an action. -/
def Tracks {β : Type} (X : Site) (p : Nat) (pre : List Word) (A : Action β)
    (post : β → Nat → List Word → Prop) : Prop :=
  ∀ rest S F s, Holds X.slots X.env F S →
    match A F s with
    | .ok (b, F') s' => ∃ q ws S', post b q ws ∧ Holds X.slots X.env F' S' ∧
        X.Goes ⟨p, pre ++ rest, S⟩ s ⟨q, ws ++ rest, S'⟩ s'
    | .error h s' => X.Halts ⟨p, pre ++ rest, S⟩ s (.error h s')

namespace Tracks

variable {β γ : Type} {X : Site} {p : Nat} {pre : List Word} {A : Action β}
  {post : β → Nat → List Word → Prop}

/-- Nothing to do. -/
lemma done {b : β} (h : post b p pre) : Tracks X p pre (Pure.pure b) post :=
  fun _ S _ s hF => ⟨p, pre, S, h, hF, .refl _ s⟩

/-- Less may be claimed. -/
lemma mono {post' : β → Nat → List Word → Prop} (h : Tracks X p pre A post)
    (hpost : ∀ b q ws, post b q ws → post' b q ws) : Tracks X p pre A post' := by
  intro rest S F s hF
  have hA := h rest S F s hF
  cases hr : A F s with
  | ok r s' =>
    simp only [hr] at hA ⊢
    obtain ⟨q, ws, S', hb, hF', hgoes⟩ := hA
    exact ⟨q, ws, S', hpost _ _ _ hb, hF', hgoes⟩
  | error e s' =>
    simp only [hr] at hA ⊢
    exact hA

/-- One action after the other. -/
lemma bind {B : β → Action γ} {post' : γ → Nat → List Word → Prop} (h : Tracks X p pre A post)
    (h' : ∀ b q ws, post b q ws → Tracks X q ws (B b) post') :
    Tracks X p pre (A >>= B) post' := by
  intro rest S F s hF
  have hA := h rest S F s hF
  rw [Action.bind_apply]
  cases hr : A F s with
  | error e s' =>
    simp only [hr] at hA ⊢
    exact hA
  | ok r s' =>
    simp only [hr] at hA ⊢
    obtain ⟨q, ws, S', hb, hF', hgoes⟩ := hA
    have hB := h' _ q ws hb rest S' _ s' hF'
    cases hr' : B r.1 r.2 s' with
    | error e s'' =>
      simp only [hr'] at hB ⊢
      exact hgoes.halts hB
    | ok r' s'' =>
      simp only [hr'] at hB ⊢
      obtain ⟨q', ws', S'', hc, hF'', hgoes'⟩ := hB
      exact ⟨q', ws', S'', hc, hF'', hgoes.trans hgoes'⟩

/-- The action may be replaced by one that does the same. -/
lemma congr {A' : Action β} (h : Tracks X p pre A post) (heq : A' = A) :
    Tracks X p pre A' post := heq ▸ h

/-- Further words may lie below. -/
lemma below (ws : List Word) (h : Tracks X p pre A post) :
    Tracks X p (pre ++ ws) A (fun b q ws' => ∃ top, post b q top ∧ ws' = top ++ ws) := by
  intro rest S F s hF
  have hA := h (ws ++ rest) S F s hF
  rw [List.append_assoc]
  cases hr : A F s with
  | ok r s' =>
    simp only [hr] at hA ⊢
    obtain ⟨q, top, S', hb, hF', hgoes⟩ := hA
    refine ⟨q, top ++ ws, S', ⟨top, hb, rfl⟩, hF', ?_⟩
    rw [List.append_assoc]
    exact hgoes
  | error e s' =>
    simp only [hr] at hA ⊢
    exact hA

/-- The action ends at an offset, with words that depend on its result only. -/
abbrev At {β : Type} (q : Nat) (f : β → List Word) : β → Nat → List Word → Prop :=
  fun b r ws => r = q ∧ ws = f b

/-- One action after the other, where it is known where the first one ends. -/
lemma andThen {q : Nat} {f : β → List Word} {B : β → Action γ}
    {post' : γ → Nat → List Word → Prop} (h : Tracks X p pre A (At q f))
    (h' : ∀ b, Tracks X q (f b) (B b) post') : Tracks X p pre (A >>= B) post' := by
  refine h.bind fun b r ws hb => ?_
  obtain ⟨rfl, rfl⟩ := hb
  exact h' b

/-- Code that only rearranges words comes first. -/
lemma first {q : Nat} {mid : List Word} {B : Action γ} {post' : γ → Nat → List Word → Prop}
    (h : Tracks X p pre (Pure.pure ()) (At q fun _ => mid)) (h' : Tracks X q mid B post') :
    Tracks X p pre B post' :=
  (h.andThen fun _ => h').congr (pure_bind () fun _ => B).symm

/-- Code that only rearranges words comes last. -/
lemma last {q r : Nat} {f g : β → List Word} (h : Tracks X p pre A (At q f))
    (h' : ∀ b, Tracks X q (f b) (Pure.pure ()) (At r fun _ => g b)) :
    Tracks X p pre A (At r g) := by
  refine Tracks.congr (h.andThen fun b => (h' b).first (done ⟨rfl, rfl⟩)) ?_
  exact (bind_pure A).symm

/-- Further words may lie below. -/
lemma under {q : Nat} {f : β → List Word} (ws : List Word) (h : Tracks X p pre A (At q f)) :
    Tracks X p (pre ++ ws) A (At q fun b => f b ++ ws) := by
  refine (h.below ws).mono fun b r ws' hb => ?_
  obtain ⟨top, ⟨rfl, rfl⟩, rfl⟩ := hb
  exact ⟨rfl, rfl⟩

/-! ## One instruction -/

/-- An instruction that finds a defect. -/
lemma stuck {i : Instruction} {fault : InternalFault} (hi : X.unit.code.Holds p i)
    (h : ∀ rest S s,
      X.step i.op ⟨p, pre ++ rest, S⟩ s = .error (.error (.internal fault)) s) :
    Tracks X p pre Action.stuck post := by
  intro rest S F s _
  exact .one hi.op (h rest S s) (.internal _ _ s)

/-- An instruction that jumps and leaves something on the stack. -/
lemma jumps {ws : List Word} {i : Instruction} {target : Nat} (hws : ws ≠ [])
    (hi : X.unit.code.Holds p i) (h : ∀ rest S s,
      X.step i.op ⟨p, pre ++ rest, S⟩ s = .ok (.jump target, ⟨p, ws ++ rest, S⟩) s) :
    Tracks X p pre (Pure.pure ()) (fun _ q ws' => q = target ∧ ws' = ws) := by
  intro rest S F s hF
  exact ⟨target, ws, S, ⟨rfl, rfl⟩, hF, .jump hi.op (h rest S s) (by simp [hws]) (.refl _ _)⟩

end Tracks

namespace Site

/-- The instruction at an offset carries out an evaluation: with the words `pre` on top of the stack
it does to the store what the evaluation does, leaves the words `f b` in their place for a result
`b`, and goes on behind itself. The slots are left alone. -/
structure Does {β : Type} (X : Site) (p : Nat) (i : Instruction) (pre : List Word) (act : Eval β)
    (f : β → List Word) : Prop where
  holds : X.unit.code.Holds p i
  run : ∀ rest S s, X.step i.op ⟨p, pre ++ rest, S⟩ s = match act s with
    | .ok b s' => .ok (.next, ⟨p, f b ++ rest, S⟩) s'
    | .error e s' => .error e s'

namespace Does

variable {β : Type} {X : Site} {p : Nat} {i : Instruction} {pre ws : List Word}

/-- One instruction as a piece of code. -/
lemma tracks {act : Eval β} {f : β → List Word} (h : X.Does p i pre act f) :
    Tracks X p pre (Action.lift act) (Tracks.At (p + i.op.size) f) := by
  intro rest S F s hF
  have hstep := h.run rest S s
  rw [Action.lift_apply]
  cases hr : act s with
  | ok b s' =>
    rw [hr] at hstep
    exact ⟨p + i.op.size, f b, S, ⟨rfl, rfl⟩, hF, .one h.holds.op hstep⟩
  | error e s' =>
    rw [hr] at hstep
    exact .one h.holds.op hstep (.refl _)

/-- An instruction that only rearranges words. -/
lemma moves (h : X.Does p i pre (Pure.pure ()) fun _ => ws) :
    Tracks X p pre (Pure.pure ()) (Tracks.At (p + i.op.size) fun _ => ws) := h.tracks

end Does

end Site

end CallByNeed
