import CallByNeed.Proofs.Eval.Runs
import CallByNeed.Proofs.Flow.Semantics

/-!
# Runs of a graph

Every block of a graph ends with a transfer of control, so that its statements never lead on behind
the block. A smaller bound on the number of blocks is used up whenever a larger one is.
-/

namespace CallByNeed.Flow

open Action

/-! ## Blocks end with a transfer -/

/-- The last statement of a block transfers control. -/
def Block.Closed (b : Block) : Prop :=
  ∃ first last, b.statements = first ++ [last] ∧ last.isTransfer = true

namespace Graph

/-- A block that is closed by a transfer. -/
lemma Open.closed_close (o : Open) {last : Statement Term} (h : last.isTransfer = true) :
    (o.close last).Closed :=
  ⟨o.statements.reverse, last, by simp [Open.close], h⟩

/-- Taking a line finishes closed blocks only. -/
lemma Building.closed_line {g : Building} (h : ∀ b ∈ g.blocks, b.Closed) (line : Line Term) :
    ∀ b ∈ (g.line line).blocks, b.Closed := by
  have hclose : ∀ (o : Open) {last : Statement Term}, last.isTransfer = true →
      ∀ b ∈ o.close last :: g.blocks, b.Closed := by
    intro o last hlast b hb
    rcases List.mem_cons.1 hb with rfl | hb
    · exact o.closed_close hlast
    · exact h b hb
  cases hg : g.current with
  | none => cases line <;> simpa only [Building.line, hg] using h
  | some o =>
    cases line with
    | label l =>
      simp only [Building.line, hg]
      split
      · exact h
      · exact hclose o rfl
    | statement s =>
      simp only [Building.line, hg]
      split
      · exact hclose o ‹_›
      · exact h

/-- A body has an entry block. -/
theorem ofBody_ne_nil (body : Body) : ofBody body ≠ [] := by
  have hline : ∀ (g : Building) (line : Line Term), (g.current = none → g.blocks ≠ []) →
      (g.line line).current = none → (g.line line).blocks ≠ [] := by
    intro g line h
    cases hg : g.current with
    | none =>
      cases line with
      | label l => simp [Building.line, hg]
      | statement s => simpa [Building.line, hg] using h hg
    | some o =>
      cases line with
      | label l =>
        simp only [Building.line, hg]
        split <;> simp
      | statement s =>
        simp only [Building.line, hg]
        split <;> simp
  have hfold : ∀ (lines : Body) (g : Building), (g.current = none → g.blocks ≠ []) →
      (lines.foldl Building.line g).current = none →
        (lines.foldl Building.line g).blocks ≠ [] := by
    intro lines
    induction lines with
    | nil => exact fun g h => h
    | cons line lines ih => exact fun g h => ih _ (hline g line h)
  unfold ofBody Building.finish
  split
  · simp
  · rename_i hnone
    have hblocks : (Building.ofBody body).blocks ≠ [] :=
      hfold body .start (by simp [Building.start]) hnone
    simpa using hblocks

/-- Every block of a graph ends with a transfer. -/
theorem closed_ofBody (body : Body) : ∀ b ∈ ofBody body, b.Closed := by
  have hfold : ∀ (lines : Body) (g : Building), (∀ b ∈ g.blocks, b.Closed) →
      ∀ b ∈ (lines.foldl Building.line g).blocks, b.Closed := by
    intro lines
    induction lines with
    | nil => exact fun g h => h
    | cons line lines ih => exact fun g h => ih _ (Building.closed_line h line)
  have hall := hfold body .start (by simp [Building.start])
  intro b hb
  unfold ofBody Building.finish at hb
  split at hb
  · rename_i o ho
    rcases List.mem_cons.1 (List.mem_reverse.1 hb) with rfl | hb
    · exact o.closed_close rfl
    · exact hall b hb
  · exact hall b (List.mem_reverse.1 hb)

end Graph

namespace Scene

variable {X : Scene}

/-- Statements in order are some of them and then the others. -/
lemma statements_append (first rest : List (Statement Term)) :
    X.statements (first ++ rest) = (do
      match ← X.statements first with
      | .next => X.statements rest
      | exit => return exit) := by
  induction first with
  | nil => exact (pure_bind _ _).symm
  | cons s first ih =>
    simp only [List.cons_append, statements, ih, bind_assoc]
    refine congrArg (X.statement s >>= ·) (funext fun exit => ?_)
    cases exit <;> simp only [pure_bind]

/-- A transfer does not lead on. -/
lemma statement_ne_next {s : Statement Term} (hs : s.isTransfer = true) {F F' : Frame}
    {store store' : Store} : X.statement s F store ≠ .ok (.next, F') store' := by
  have hpure : ∀ (exit : Exit) (F : Frame) (store : Store), exit ≠ .next →
      (pure exit : Action Exit) F store ≠ .ok (.next, F') store' := by
    intro exit F store hne h
    cases h
    exact hne rfl
  cases s with
  | goto l => exact hpure (.jump l) F store (by simp)
  | branch condition yes no =>
    simp only [statement]
    rw [bind_apply]
    cases X.term condition F store with
    | error h store => simp
    | ok r store =>
      dsimp only
      rw [bind_apply]
      cases Action.lift (Eval.ofExcept r.1.truthy) r.2 store with
      | error h store => simp
      | ok r store => exact hpure (.jump _) r.2 store (by simp)
  | ret value =>
    simp only [statement]
    rw [bind_apply]
    cases X.term value F store with
    | error h store => simp
    | ok r store => exact hpure (.ret r.1) r.2 store (by simp)
  | assign target value => cases hs
  | eval value => cases hs

/-- The statements of a block do not lead on behind it. -/
theorem statements_ne_next {b : Block} (hb : b.Closed) {F F' : Frame} {store store' : Store} :
    X.statements b.statements F store ≠ .ok (.next, F') store' := by
  obtain ⟨first, last, hstatements, hlast⟩ := hb
  rw [hstatements, statements_append, bind_apply]
  cases X.statements first F store with
  | error h store => simp
  | ok r store =>
    obtain ⟨exit, F⟩ := r
    cases exit with
    | next =>
      dsimp only
      have hone : X.statements [last] = X.statement last := by
        simp only [statements]
        refine Eq.trans ?_ (bind_pure (X.statement last))
        refine congrArg (X.statement last >>= ·) (funext fun exit => ?_)
        cases exit <;> rfl
      rw [hone]
      exact statement_ne_next hlast
    | jump l => exact fun h => by cases h
    | ret v => exact fun h => by cases h

/-! ## Bounds -/

/-- One more block. -/
lemma blocks_succ (g : Graph) (bound position : Nat) (F : Frame) (s : Store) :
    X.blocks g (bound + 1) position F s = match g[position]? with
      | none => stuck F s
      | some b =>
        match X.statements b.statements F s with
        | .error h s => .error h s
        | .ok (.next, F) s => stuck F s
        | .ok (.ret v, F) s => .ok (v, F) s
        | .ok (.jump l, F) s =>
          match g.blockOf? l with
          | none => stuck F s
          | some position => X.blocks g bound position F s := by
  rw [blocks]
  cases g[position]? with
  | none => rfl
  | some b =>
    dsimp only
    rw [bind_apply]
    cases X.statements b.statements F s with
    | error h s => rfl
    | ok r s =>
      obtain ⟨exit, F⟩ := r
      cases exit with
      | next => rfl
      | ret v => rfl
      | jump l =>
        dsimp only
        cases g.blockOf? l <;> rfl

/-- A smaller bound is used up whenever a larger one is. -/
lemma exhausts_blocks_of_le {g : Graph} {n m position : Nat} {F : Frame} {s : Store}
    (hle : m ≤ n) (h : Exhausts (X.blocks g n position F s)) :
    Exhausts (X.blocks g m position F s) := by
  induction m generalizing n position F s with
  | zero => exact ⟨s, rfl⟩
  | succ m ih =>
    obtain ⟨n, rfl⟩ := Nat.exists_eq_add_of_le' (show 1 ≤ n by omega)
    rw [blocks_succ] at h ⊢
    cases hb : g[position]? with
    | none => simpa only [hb] using h
    | some b =>
      simp only [hb] at h ⊢
      cases hr : X.statements b.statements F s with
      | error e s => simpa only [hr] using h
      | ok r s =>
        obtain ⟨exit, F⟩ := r
        simp only [hr] at h ⊢
        cases exit with
        | next => exact h
        | ret v => exact h
        | jump l =>
          cases hl : g.blockOf? l with
          | none => simpa only [hl] using h
          | some position =>
            simp only [hl] at h ⊢
            exact ih (by omega) h

end Scene

end CallByNeed.Flow
