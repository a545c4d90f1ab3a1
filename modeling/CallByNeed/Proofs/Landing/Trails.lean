import CallByNeed.Proofs.Discipline.Runs
import CallByNeed.Proofs.Landing.Stretches

/-!
# Blocks that a run visits

A run of a unit begins a block whenever it executes the instruction where the block begins. It begins
the blocks that a run of the graph comes to, in the same order and as often
(`Compiling.unit_lands`).

The code of a block is followed along the path that its statements take. As long as the path goes on
behind an instruction it stays in the block, since the block ends in a transfer. Where it jumps it
leaves something on the stack, and a jump to a label leaves nothing, so it stays in the block there
too (`Site.Surveyed.lags_goes`). Only what follows the path leaves the block, by the jump that the
graph says.
-/

namespace CallByNeed

open CallByNeed.Flow (Label Frame Scene Block Graph Tables Body)

/-! ## Trails -/

/-- The offsets of the instructions that a run executes, in order, up to a bound on their number. -/
def Machine.offsets (options : RuntimeOptions) (host : Host) (unit : CodeUnit) (env : EnvId) :
    Nat → Machine → Store → List Nat
  | 0, _, _ => []
  | n + 1, m, s => m.position ::
    match advance options host unit env m s with
    | .ok (.on m) s => offsets options host unit env n m s
    | _ => []

/-- The blocks that a run of a graph comes to, in order, up to a bound on their number. -/
def Flow.Scene.trail (X : Scene) (g : Graph) : Nat → Nat → Frame → Store → List Nat
  | 0, _, _, _ => []
  | n + 1, i, F, s => i ::
    match g[i]? with
    | none => []
    | some b =>
      match X.statements b.statements F s with
      | .ok (.jump l, F) s =>
        match g.blockOf? l with
        | none => []
        | some i => trail X g n i F s
      | _ => []

section

variable {options : RuntimeOptions} {host : Host} {unit : CodeUnit} {env : EnvId} {s₀ s : Store}
  {m : Machine} {p : Nat}

/-- Whatever is executed from a visited machine on is executed by a visited machine. -/
lemma Machine.Visits.of_mem_offsets {n : Nat} (h : Visits options host unit env s₀ m s)
    (hp : p ∈ offsets options host unit env n m s) :
    ∃ m' s', Visits options host unit env s₀ m' s' ∧ m'.position = p := by
  induction n generalizing m s with
  | zero => exact absurd hp List.not_mem_nil
  | succ n ih =>
    rw [offsets] at hp
    rcases List.mem_cons.1 hp with rfl | hp
    · exact ⟨m, s, h, rfl⟩
    cases ha : advance options host unit env m s with
    | error e t => simp [ha] at hp
    | ok turn t =>
      cases turn with
      | back v => simp [ha] at hp
      | on m' => exact ih (h.on ha) (by simpa [ha] using hp)

/-- Whatever is executed from a visited machine on is executed from the start on, within a bound that
is larger by what has been executed before. -/
lemma Machine.Visits.offsets_subset (h : Visits options host unit env s₀ m s) :
    ∃ k, ∀ n, offsets options host unit env n m s
      ⊆ offsets options host unit env (n + k) (.start unit env) s₀ := by
  induction h with
  | start => exact ⟨0, fun _ => List.Subset.refl _⟩
  | @on m m' s s' _ ha ih =>
    obtain ⟨k, hk⟩ := ih
    refine ⟨k + 1, fun n x hx => ?_⟩
    have hx' : x ∈ offsets options host unit env (n + 1) m s := by
      rw [offsets, ha]
      exact List.mem_cons_of_mem _ hx
    rw [Nat.add_comm k 1, ← Nat.add_assoc]
    exact hk (n + 1) hx'

/-- The offsets are those of the machines that the run visits. -/
theorem Machine.mem_offsets : (∃ n, p ∈ offsets options host unit env n (.start unit env) s₀) ↔
    ∃ m s, Visits options host unit env s₀ m s ∧ m.position = p := by
  constructor
  · rintro ⟨n, hp⟩
    exact Visits.start.of_mem_offsets hp
  · rintro ⟨m, s, hm, rfl⟩
    obtain ⟨k, hk⟩ := hm.offsets_subset
    exact ⟨1 + k, hk 1 List.mem_cons_self⟩

end

/-- A run of a graph that is not cut off comes to no further block with a larger bound. -/
theorem Flow.Scene.trail_of_le {X : Scene} {g : Graph} {n k i : Nat} {F : Frame} {s : Store}
    (h : ¬ Exhausts (X.blocks g n i F s)) (hle : n ≤ k) : X.trail g k i F s = X.trail g n i F s := by
  induction n generalizing k i F s with
  | zero => exact absurd ⟨s, rfl⟩ h
  | succ n ih =>
    obtain ⟨k, rfl⟩ := Nat.exists_eq_add_of_le' (Nat.le_trans (Nat.le_add_left 1 n) hle)
    rw [blocks_succ] at h
    simp only [trail]
    cases hb : g[i]? with
    | none => rfl
    | some b =>
      simp only [hb] at h ⊢
      cases hr : X.statements b.statements F s with
      | error e s' => rfl
      | ok r s' =>
        obtain ⟨exit, F'⟩ := r
        simp only [hr] at h ⊢
        cases exit with
        | next | ret v => rfl
        | jump l =>
          cases hl : g.blockOf? l with
          | none => simp only [hl]
          | some j =>
            simp only [hl] at h ⊢
            exact congrArg (i :: ·) (ih h (Nat.le_of_succ_le_succ hle))

/-! ## Lagging behind -/

/-- One run passes what another one passes, though it takes more steps to do so: what it has passed
within a bound the other one has passed within a bound that is no larger, and what the other one has
passed it passes within some bound. -/
def Lags (f g : Nat → List Nat) : Prop :=
  (∀ n, ∃ k ≤ n, f n = g k) ∧ ∀ k, ∃ n, f n = g k

namespace Lags

variable {f g h : Nat → List Nat}

lemma refl (f : Nat → List Nat) : Lags f f := ⟨fun n => ⟨n, Nat.le_refl n, rfl⟩, fun k => ⟨k, rfl⟩⟩

lemma trans (hfg : Lags f g) (hgh : Lags g h) : Lags f h := by
  refine ⟨fun n => ?_, fun k => ?_⟩
  · obtain ⟨k, hk, hf⟩ := hfg.1 n
    obtain ⟨l, hl, hg⟩ := hgh.1 k
    exact ⟨l, Nat.le_trans hl hk, hf.trans hg⟩
  · obtain ⟨l, hg⟩ := hgh.2 k
    obtain ⟨n, hf⟩ := hfg.2 l
    exact ⟨n, hf.trans hg⟩

/-- One step on which nothing is passed. -/
lemma skip (hzero : f 0 = g 0) (hsucc : ∀ n, f (n + 1) = g n) : Lags f g := by
  refine ⟨fun n => ?_, fun k => ⟨k + 1, hsucc k⟩⟩
  cases n with
  | zero => exact ⟨0, Nat.le_refl 0, hzero⟩
  | succ n => exact ⟨n, Nat.le_succ n, hsucc n⟩

/-- What lags behind a run that passes nothing passes nothing. -/
lemma eq_nil (hfg : Lags f g) (hg : ∀ k, g k = []) (n : Nat) : f n = [] := by
  obtain ⟨k, -, hf⟩ := hfg.1 n
  rw [hf, hg]

end Lags

/-! ## Instructions on a chart -/

/-- An instruction that abides by a rule goes on behind itself, or jumps. -/
lemma Rule.leads {z : Slots} {u : CodeUnit} {p : Nat} {i : Instruction} {Γ : Layout}
    {succs : List (Nat × Layout)} (h : Rule z u p i Γ succs) {r : Nat × Layout} (hr : r ∈ succs) :
    (i.op ≠ .jump ∧ i.op ≠ .ret ∧ r.1 = p + i.op.size) ∨
      (i.op.isJump = true ∧ i = ⟨i.op, [r.1]⟩) := by
  cases h with
  | effect he Γ =>
    obtain rfl := List.mem_singleton.1 hr
    refine .inl ⟨?_, ?_, rfl⟩ <;> rintro hi <;> cases he <;> cases hi
  | jump t =>
    obtain rfl := List.mem_singleton.1 hr
    exact .inr ⟨rfl, rfl⟩
  | jumpIfZero t | jumpIfNonZero c cs t | jumpIfIntLess t =>
    rcases List.mem_cons.1 hr with rfl | hr
    · exact .inl ⟨nofun, nofun, rfl⟩
    · obtain rfl := List.mem_singleton.1 hr
      exact .inr ⟨rfl, rfl⟩
  | ret => cases hr

namespace Site

variable {X : Site} {T : Nat → Option Layout} {op : Opcode} {m m₁ m' : Machine} {s s₁ s' : Store}

/-- A jump does not go on behind itself, and neither does a return. -/
lemma ne_of_next (h : X.step op m s = .ok (.next, m₁) s₁) : op ≠ .jump ∧ op ≠ .ret := by
  refine ⟨?_, ?_⟩
  · rintro rfl
    simp only [Site.step, Machine.step, Machine.bind_apply] at h
    split at h <;> cases h
  · rintro rfl
    simp only [Site.step, Machine.step, Machine.bind_apply] at h
    split at h <;> cases h

/-- A machine on a chart that goes on at an offset stays on the chart, and does what the instruction
says. -/
lemma leads (hs : X.slots.Sound) (hT : Charted X.slots X.unit T)
    (hm : m.Fits T X.slots X.env) (hop : X.unit.Reads m.position op) {transfer : Machine.Transfer}
    (h : X.step op m s = .ok (transfer, m₁) s₁) {t : Nat}
    (ht : transfer.target? m.position op = some t) :
    m₁.position = m.position ∧ ({ m₁ with position := t } : Machine).Fits T X.slots X.env ∧
      ((op ≠ .jump ∧ op ≠ .ret ∧ t = m.position + op.size) ∨
        (op.isJump = true ∧ X.unit.code.Holds m.position ⟨op, [t]⟩)) := by
  obtain ⟨i, Γ, succs, hi, hrule, hsuccs, hproceeds⟩ := Charts.proceeds hs hT hm
  obtain rfl : op = i.op := Option.some.inj (hop.symm.trans hi.op)
  have hstep := hproceeds s
  rw [h] at hstep
  cases hstep with
  | @goes _ _ _ t' Δ F' hp ht' hΔ hF' hw =>
    obtain rfl : t = t' := Option.some.inj (ht.symm.trans ht')
    have hTt : T t = some Δ := hsuccs _ hΔ
    refine ⟨hp, ⟨Δ, F', hTt, hF', hw⟩, (hrule.leads hΔ).imp_right fun hjump => ⟨hjump.1, ?_⟩⟩
    rw [← hjump.2]
    exact hi
  | returns => cases ht

/-! ## Begun blocks -/

/-- The blocks that a run begins, in order, up to a bound on the number of instructions. -/
def begun (X : Site) (starts : List Nat) (n : Nat) (m : Machine) (s : Store) : List Nat :=
  (Machine.offsets ⟨X.limit, false⟩ X.host X.unit X.env n m s).filterMap fun p => starts.idxOf? p

/-- Those that it begins behind the first instruction. -/
def begunNext (X : Site) (starts : List Nat) (n : Nat) (m : Machine) (s : Store) : List Nat :=
  match Machine.advance ⟨X.limit, false⟩ X.host X.unit X.env m s with
  | .ok (.on m) s => X.begun starts n m s
  | _ => []

variable {starts : List Nat}

lemma begun_zero (m : Machine) (s : Store) : X.begun starts 0 m s = [] := rfl

lemma begun_succ (n : Nat) (m : Machine) (s : Store) :
    X.begun starts (n + 1) m s = match starts.idxOf? m.position with
      | none => X.begunNext starts n m s
      | some i => i :: X.begunNext starts n m s := by
  have hnext : X.begunNext starts n m s = List.filterMap (fun p => starts.idxOf? p)
      (match Machine.advance ⟨X.limit, false⟩ X.host X.unit X.env m s with
        | .ok (.on m) s => Machine.offsets ⟨X.limit, false⟩ X.host X.unit X.env n m s
        | _ => []) := by
    unfold begunNext begun
    split <;> rfl
  rw [begun, Machine.offsets, List.filterMap_cons, hnext]
  cases starts.idxOf? m.position <;> rfl

/-- Executing an instruction without tracing it. -/
lemma advance_eq (hop : X.unit.Reads m.position op) (s : Store) :
    Machine.advance ⟨X.limit, false⟩ X.host X.unit X.env m s = match X.step op m s with
      | .ok (transfer, m) s => .ok (transfer.turn op m) s
      | .error e s => .error e s := by
  rw [Machine.advance_of_op hop]
  show EStateM.bind (X.step op m) _ s = _
  unfold EStateM.bind
  cases X.step op m s <;> rfl

lemma begunNext_next (hop : X.unit.Reads m.position op) (h : X.step op m s = .ok (.next, m₁) s₁)
    (n : Nat) : X.begunNext starts n m s
      = X.begun starts n { m₁ with position := m₁.position + op.size } s₁ := by
  rw [begunNext, advance_eq hop, h]
  rfl

lemma begunNext_jump (hop : X.unit.Reads m.position op) {t : Nat}
    (h : X.step op m s = .ok (.jump t, m₁) s₁) (n : Nat) :
    X.begunNext starts n m s = X.begun starts n { m₁ with position := t } s₁ := by
  rw [begunNext, advance_eq hop, h]
  rfl

/-- Nothing is begun behind a last instruction. -/
lemma Stops.begunNext {r : Result Value} (h : X.Stops m s r) (n : Nat) :
    X.begunNext starts n m s = [] := by
  cases h with
  | ret hop h =>
    rw [Site.begunNext, advance_eq hop, h]
    rfl
  | error hop h => rw [Site.begunNext, advance_eq hop, h]

/-- A machine where no block begins lags behind those that follow it. -/
lemma lags_of_begunNext (hnext : ∀ n, X.begunNext starts n m s = X.begun starts n m' s')
    (hidle : starts.idxOf? m'.position = none) :
    Lags (fun n => X.begunNext starts n m s) (fun n => X.begunNext starts n m' s') := by
  refine .skip ?_ fun n => ?_
  · rw [hnext, begun_zero]
    unfold begunNext
    split <;> rfl
  · rw [hnext, begun_succ, hidle]

end Site

/-! ## Following a path -/

/-- A unit on a chart whose code is that of blocks, and whose stack is empty where labels lead. -/
structure Site.Surveyed (X : Site) (lands : Label → Nat → Prop) (starts : List Nat)
    (T : Nat → Option Layout) : Prop where
  slots : X.slots.Sound
  chart : Charted X.slots X.unit T
  landings : ∀ l t, lands l t → T t = some []
  block : ∀ i start, starts[i]? = some start → ∃ q, X.unit.BlockIn lands starts i start q

namespace CodeUnit.BlockIn

variable {u : CodeUnit} {lands : Label → Nat → Prop} {starts : List Nat} {i p q : Nat}

/-- The block begins where it does. -/
lemma idxOf?_start (h : u.BlockIn lands starts i p q) (hp : starts[i]? = some p) :
    starts.idxOf? p = some i := by
  obtain ⟨hlt, hget⟩ := List.getElem?_eq_some_iff.1 hp
  refine List.idxOf?_eq_some_iff.2 ⟨hlt, hget, fun j hj hjp => ?_⟩
  have hij := h.alone j p (List.getElem?_eq_some_iff.2 ⟨Nat.lt_trans hj hlt, hjp⟩)
    (Nat.le_refl p) h.lt
  exact absurd hij (Nat.ne_of_lt hj)

/-- No block begins further inside. -/
lemma idxOf?_inside (h : u.BlockIn lands starts i p q) (hp : starts[i]? = some p) {x : Nat}
    (hx : p < x) (hx' : x < q) : starts.idxOf? x = none := by
  refine List.idxOf?_eq_none_iff.2 fun hmem => ?_
  obtain ⟨j, hj⟩ := List.getElem?_of_mem hmem
  obtain rfl := h.alone j x hj (Nat.le_of_lt hx) hx'
  rw [hp] at hj
  exact absurd (Option.some.inj hj) (Nat.ne_of_lt hx)

end CodeUnit.BlockIn

namespace Site.Surveyed

variable {X : Site} {lands : Label → Nat → Prop} {starts : List Nat} {T : Nat → Option Layout}
  {i p q : Nat} {B : Nat → Prop} {op : Opcode} {m m₁ m' : Machine} {s s₁ s' : Store}

/-- An instruction of a block that goes on behind itself stays in the block. -/
lemma next (h : X.Surveyed lands starts T)
    (hB : X.unit.Keeps (CodeUnit.Landings lands) p q (fun _ => False) B)
    (hm : m.Fits T X.slots X.env) (hx : B m.position) (hop : X.unit.Reads m.position op)
    (hstep : X.step op m s = .ok (.next, m₁) s₁) :
    ({ m₁ with position := m₁.position + op.size } : Machine).Fits T X.slots X.env ∧
      B (m₁.position + op.size) ∧ m.position < m₁.position + op.size := by
  obtain ⟨hposition, hfits, -⟩ := leads h.slots h.chart hm hop hstep rfl
  obtain ⟨hjump, hret⟩ := ne_of_next hstep
  rw [hposition]
  exact ⟨hfits, (hB.falls _ op hx hop hjump hret).resolve_right id,
    Nat.lt_add_of_pos_right op.size_pos⟩

/-- So does an instruction that jumps and leaves something on the stack. -/
lemma jump (h : X.Surveyed lands starts T)
    (hB : X.unit.Keeps (CodeUnit.Landings lands) p q (fun _ => False) B)
    (hm : m.Fits T X.slots X.env) (hx : B m.position) (hop : X.unit.Reads m.position op) {t : Nat}
    (hstep : X.step op m s = .ok (.jump t, m₁) s₁) (hne : m₁.stack ≠ []) :
    ({ m₁ with position := t } : Machine).Fits T X.slots X.env ∧ B t ∧ m.position < t := by
  obtain ⟨-, hfits, ⟨hjump, hret, rfl⟩ | ⟨hjump, ht⟩⟩ := leads h.slots h.chart hm hop hstep rfl
  · exact ⟨hfits, (hB.falls _ op hx hop hjump hret).resolve_right id,
      Nat.lt_add_of_pos_right op.size_pos⟩
  · rcases hB.jumps _ op t hx hjump ht with ⟨hlt, ht⟩ | ⟨⟨⟩⟩ | ⟨l, hl⟩
    · exact ⟨hfits, ht, hlt⟩
    · -- a jump to a label would leave nothing
      obtain ⟨Γ, F, hΓ, -, hcovers⟩ := hfits
      rw [h.landings l t hl] at hΓ
      cases hΓ
      exact absurd hcovers hne

/-- **A path that begins in a block stays there**, and begins no block. -/
theorem lags_goes (h : X.Surveyed lands starts T)
    (hB : X.unit.Keeps (CodeUnit.Landings lands) p q (fun _ => False) B)
    (hidle : ∀ x, p < x → x < q → starts.idxOf? x = none) (hgoes : X.Goes m s m' s')
    (hm : m.Fits T X.slots X.env) (hx : B m.position) :
    Lags (fun n => X.begunNext starts n m s) (fun n => X.begunNext starts n m' s') := by
  have hstays : ∀ {x t}, B x → B t → x < t → starts.idxOf? t = none := fun hx ht hlt =>
    hidle _ (Nat.lt_of_le_of_lt (hB.inside _ hx).1 hlt) (hB.inside _ ht).2
  induction hgoes with
  | refl m s => exact .refl _
  | next hop hstep _ ih =>
    obtain ⟨hfits, ht, hlt⟩ := h.next hB hm hx hop hstep
    exact (lags_of_begunNext (begunNext_next hop hstep) (hstays hx ht hlt)).trans (ih hfits ht)
  | jump hop hstep hne _ ih =>
    obtain ⟨hfits, ht, hlt⟩ := h.jump hB hm hx hop hstep hne
    exact (lags_of_begunNext (begunNext_jump hop hstep) (hstays hx ht hlt)).trans (ih hfits ht)

/-- A machine at the start of a block begins the block, and then what it begins behind it. -/
lemma begun_start (h : X.Surveyed lands starts T) (hp : starts[i]? = some p) (n : Nat)
    (st : List Word) (S : Array Word) (s : Store) :
    X.begun starts (n + 1) ⟨p, st, S⟩ s = i :: X.begunNext starts n ⟨p, st, S⟩ s := by
  obtain ⟨q, hblock⟩ := h.block i p hp
  rw [begun_succ]
  simp only [hblock.idxOf?_start hp]

/-- A path from the start of a block begins no other block. -/
lemma lags_path (h : X.Surveyed lands starts T) (hp : starts[i]? = some p) {S : Array Word}
    (hm : (⟨p, [], S⟩ : Machine).Fits T X.slots X.env) (hgoes : X.Goes ⟨p, [], S⟩ s m' s') :
    Lags (fun n => X.begunNext starts n ⟨p, [], S⟩ s) (fun n => X.begunNext starts n m' s') := by
  obtain ⟨q, hblock⟩ := h.block i p hp
  obtain ⟨B, hB⟩ := hblock.stretch
  exact h.lags_goes hB (fun _ hx hx' => hblock.idxOf?_inside hp hx hx') hgoes hm
    (hB.start.resolve_right And.right)

/-- The code of a block that jumps to a label begins no other block before. -/
lemma lags_jumps (h : X.Surveyed lands starts T) (hp : starts[i]? = some p) {t : Nat}
    {S S' : Array Word} (hm : (⟨p, [], S⟩ : Machine).Fits T X.slots X.env)
    (hjump : X.Jumps ⟨p, [], S⟩ s t S' s') :
    Lags (fun n => X.begunNext starts n ⟨p, [], S⟩ s)
      (fun n => X.begun starts n ⟨t, [], S'⟩ s') := by
  obtain ⟨op, m₁, ⟨position, stack, slots⟩, s₁, hgoes, hop, hstep, rfl, rfl⟩ := hjump
  have hnext : (fun n => X.begunNext starts n m₁ s₁)
      = fun n => X.begun starts n ⟨t, [], slots⟩ s' := funext (begunNext_jump hop hstep)
  exact hnext ▸ h.lags_path hp hm hgoes

/-- The code of a block that stops begins no other block. -/
lemma begunNext_halts (h : X.Surveyed lands starts T) (hp : starts[i]? = some p) {S : Array Word}
    (hm : (⟨p, [], S⟩ : Machine).Fits T X.slots X.env) {r : Result Value}
    (hhalts : X.Halts ⟨p, [], S⟩ s r) (n : Nat) : X.begunNext starts n ⟨p, [], S⟩ s = [] := by
  obtain ⟨m₁, s₁, r', hgoes, hstops, -⟩ := hhalts
  exact (h.lags_path hp hm hgoes).eq_nil hstops.begunNext n

end Site.Surveyed

/-! ## Following a run -/

section

variable {g : Graph} {starts : List Nat} {z : Assembly} {u : CodeUnit} {X : Site}
  {T : Nat → Option Layout} {i p : Nat} {S : Array Word} {F : Frame} {s : Store}

/-- How the code of a block goes on: it begins no other block before it jumps to the block that the
graph comes to, or none at all if the graph comes to none. -/
lemma Laid.goesOn (h : Laid g starts z u) (hbinds : z.Binds (g.flatMap Block.labels))
    (hclosed : ∀ b ∈ g, b.Closed) (hX : X.On z u) (hT : X.Surveyed (g.LandsAt starts) starts T)
    (hp : starts[i]? = some p) (hTp : T p = some []) (hF : Holds X.slots X.env F S) :
    (∃ j t F' S' s', starts[j]? = some t ∧ T t = some [] ∧ Holds X.slots X.env F' S' ∧
      Lags (fun n => X.begunNext starts n ⟨p, [], S⟩ s) (fun n => X.begun starts n ⟨t, [], S'⟩ s') ∧
      ∀ k, X.trail g (k + 1) i F s = i :: X.trail g k j F' s') ∨
    (∀ n, X.begunNext starts n ⟨p, [], S⟩ s = []) ∧ ∀ k, X.trail g (k + 1) i F s = [i] := by
  have hfits : (⟨p, [], S⟩ : Machine).Fits T X.slots X.env := ⟨[], F, hTp, hF, rfl⟩
  have hlt : i < g.length := by
    rw [← h.length]
    exact (List.getElem?_eq_some_iff.1 hp).1
  have hb := List.getElem?_eq_getElem hlt
  obtain ⟨q, hcode⟩ := h.code i _ p hb hp
  have hlead := hcode X hX S F s hF
  simp only [Scene.trail, hb]
  cases hr : X.statements g[i].statements F s with
  | error e s' =>
    simp only [hr] at hlead
    exact .inr ⟨hT.begunNext_halts hp hfits hlead, fun _ => rfl⟩
  | ok r s' =>
    obtain ⟨exit, F'⟩ := r
    simp only [hr] at hlead
    cases exit with
    | next => exact absurd hr (Scene.statements_ne_next (hclosed _ (List.getElem_mem hlt)))
    | ret v => exact .inr ⟨hT.begunNext_halts hp hfits hlead, fun _ => rfl⟩
    | jump l =>
      obtain ⟨t, S', hl, hF', hjump⟩ := hlead
      obtain ⟨j, hj, hstart⟩ := h.blockOf? hbinds hl
      simp only [hj]
      exact .inl ⟨j, t, F', S', s', hstart, hT.landings l t ⟨j, hj, hstart⟩, hF',
        hT.lags_jumps hp hfits hjump, fun _ => rfl⟩

/-- A run of the code of a graph begins the blocks that a run of the graph comes to. -/
theorem Laid.lags (h : Laid g starts z u) (hbinds : z.Binds (g.flatMap Block.labels))
    (hclosed : ∀ b ∈ g, b.Closed) (hX : X.On z u) (hT : X.Surveyed (g.LandsAt starts) starts T)
    (hp : starts[i]? = some p) (hTp : T p = some []) (hF : Holds X.slots X.env F S) :
    Lags (fun n => X.begun starts n ⟨p, [], S⟩ s) (fun k => X.trail g k i F s) := by
  refine ⟨fun n => ?_, fun k => ?_⟩
  · -- the run of the code has fewer instructions left at the next block
    induction n using Nat.strongRecOn generalizing i p S F s with
    | ind n ih =>
    cases n with
    | zero => exact ⟨0, Nat.le_refl 0, rfl⟩
    | succ n =>
      dsimp only
      rw [hT.begun_start hp]
      rcases h.goesOn hbinds hclosed hX hT hp hTp hF with
        ⟨j, t, F', S', s', ht, hTt, hF', hlags, htrail⟩ | ⟨hnone, htrail⟩
      · obtain ⟨l, hl, hbegun⟩ := hlags.1 n
        obtain ⟨k, hk, hrest⟩ := ih l (Nat.lt_succ_of_le hl) ht hTt hF'
        refine ⟨k + 1, Nat.succ_le_succ (Nat.le_trans hk hl), ?_⟩
        rw [htrail]
        exact congrArg (i :: ·) (hbegun.trans hrest)
      · exact ⟨1, Nat.succ_le_succ (Nat.zero_le n), by rw [hnone, htrail]⟩
  · induction k generalizing i p S F s with
    | zero => exact ⟨0, rfl⟩
    | succ k ih =>
      rcases h.goesOn hbinds hclosed hX hT hp hTp hF with
        ⟨j, t, F', S', s', ht, hTt, hF', hlags, htrail⟩ | ⟨hnone, htrail⟩
      · obtain ⟨l, hrest⟩ := ih ht hTt hF'
        obtain ⟨n, hbegun⟩ := hlags.2 l
        refine ⟨n + 1, ?_⟩
        dsimp only
        rw [hT.begun_start hp, htrail]
        exact congrArg (i :: ·) (hbegun.trans hrest)
      · refine ⟨1, ?_⟩
        dsimp only
        rw [hT.begun_start hp, hnone, htrail]

end

/-! ## Compiled units -/

/-- The unit is laid out as the code of a body, and a run of it begins the blocks that a run of the
graph comes to, where the identities in the body stand for what the compiler met under them. -/
def CodeUnit.Lands (o : CompilerOptions) (b : Body) (u : CodeUnit) : Prop :=
  ∃ starts, u.LaysOut (Graph.ofBody b) starts ∧
    ∃ T : Tables, (∀ v ∈ (Notes.addAll {} b.visits).visits, Fits o T v) ∧ ∀ limit host env s, Lags
      (fun n => (Machine.offsets ⟨limit, false⟩ host u env n (.start u env) s).filterMap
        fun p => starts.idxOf? p)
      fun n => Scene.trail ⟨limit, host, env, T⟩ (Graph.ofBody b) n 0 .empty s

/-- The blocks of a graph that is laid out begin where the code does. -/
lemma CodeUnit.LaysOut.start {u : CodeUnit} {g : Graph} {starts : List Nat} (h : u.LaysOut g starts)
    (hne : g ≠ []) : starts[0]? = some 0 := by
  obtain ⟨b, g, rfl⟩ := List.exists_cons_of_ne_nil hne
  cases starts with
  | nil => exact h.elim
  | cons start starts => exact congrArg some h.1

/-- A unit that was made of a body lands where the body does. -/
theorem Made.lands {o : CompilerOptions} {depth : Nat} {name : String} {b : Body} {z : Assembly}
    {u : CodeUnit} (h : Made (Compiling.unitWithin o depth) name b z u) (hb : b.depth ≤ depth) :
    u.Lands o b := by
  obtain ⟨starts, hlaid, hlays⟩ := h.laysOut
  obtain ⟨T, hT, hlabels⟩ := h.charted_labels
  refine ⟨starts, hlays, z.tables, fun v hv => h.fits hb hv, fun limit host env s => ?_⟩
  have hclosed := Graph.closed_ofBody b
  let X : Site := ⟨⟨limit, host, env, z.tables⟩, u, z.slots⟩
  have hX : X.Surveyed ((Graph.ofBody b).LandsAt starts) starts T := {
    slots := h.links.sound.slots
    chart := hT
    landings := fun l t hl => by
      obtain ⟨i, hi, ht⟩ := hl
      obtain ⟨hlt, hmem, -⟩ := List.findIdx?_eq_some_iff_getElem.1 hi
      exact hlabels l t (hlaid.labels i _ t (List.getElem?_eq_getElem hlt) ht l
        (List.contains_iff_mem.1 hmem))
    block := fun i start hstart => hlays.block hclosed hstart }
  exact hlaid.lags h.binds hclosed (h.links.on limit host env) hX
    (hlays.start (Graph.ofBody_ne_nil b)) hT.starts (h.links.holds_start env)

/-- **Compiled units land where their bodies do**, and so do all units inside them. -/
theorem Compiling.unit_lands {o : CompilerOptions} {name : String} {b : Body} {u : CodeUnit}
    {j k : Journal} (h : Compiling.unit o name b j = .ok u k) :
    u.Lands o b ∧ ∀ v : CodeUnit, v.Within u → ∃ b', Compiles o b' v ∧ v.Lands o b' := by
  have hall : ∀ {b' : Body} {v : CodeUnit}, Compiles o b' v → v.Lands o b' := by
    intro b' v hv
    obtain ⟨_, _, z, hdepth, hz⟩ := hv.made
    exact hz.lands hdepth
  have hu := compiles_of_unit h
  refine ⟨hall hu, fun v hv => ?_⟩
  obtain ⟨b', hb'⟩ := hu.within hv
  exact ⟨b', hb', hall hb'⟩

/-- A body of three blocks, with a call in the second one, that both others lead to the last one. -/
def turningBody : Body :=
  [.statement (.branch (.int 1) ⟨0⟩ ⟨1⟩),
    .label ⟨0⟩,
    .statement (.eval (.call (.computed (.int 2)) ⟨⟨0, ⟨.null, []⟩⟩, [.int 3], [none]⟩)),
    .statement (.goto ⟨1⟩),
    .label ⟨1⟩,
    .statement (.ret (.int 4))]

theorem Compiling.unit_lands_turning :
    ∃ u k, Compiling.unit {} "main" turningBody #[] = .ok u k ∧ u.Lands {} turningBody ∧
      ∀ v : CodeUnit, v.Within u → ∃ b', Compiles {} b' v ∧ v.Lands {} b' := by
  have hcompiles : (match Compiling.unit {} "main" turningBody #[] with
      | .ok .. => true
      | .error .. => false) = true := by decide +kernel
  cases h : Compiling.unit {} "main" turningBody #[] with
  | error e k =>
    rw [h] at hcompiles
    cases hcompiles
  | ok u k => exact ⟨u, k, rfl, unit_lands h⟩

end CallByNeed
