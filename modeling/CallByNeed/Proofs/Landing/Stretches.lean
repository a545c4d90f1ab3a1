import CallByNeed.Proofs.Landing.Layout

/-!
# Code that control does not leave

A stretch of code is kept by a set of offsets in it if execution goes on within the set, or leaves
where it is said to (`CodeUnit.Keeps`). Inside a stretch execution only goes forward. So the code of a
block, which ends in a transfer of control, is left by a jump to a label at most, and is not entered a
second time before that (`CodeUnit.StatementsAt.stretch`).
-/

namespace CallByNeed

open CallByNeed.Flow (Label Statement Block Graph)

namespace CodeUnit

/-- The offsets in `B` are those of instructions between `p` and `q`. Execution begins at `p` and goes
on, forward, at one of them, or leaves: to one of the `exits`, or by a jump to somewhere `away`. -/
structure Keeps (u : CodeUnit) (away : Nat → Prop) (p q : Nat) (exits B : Nat → Prop) : Prop where
  start : B p ∨ (p = q ∧ exits p)
  inside : ∀ x, B x → p ≤ x ∧ x < q
  falls : ∀ x op, B x → u.Reads x op → op ≠ .jump → op ≠ .ret →
    B (x + op.size) ∨ exits (x + op.size)
  jumps : ∀ x op t, B x → op.isJump = true → u.code.Holds x ⟨op, [t]⟩ →
    (x < t ∧ B t) ∨ exits t ∨ away t

/-- A stretch of code that is left as is said. -/
def Stretch (u : CodeUnit) (away : Nat → Prop) (p q : Nat) (exits : Nat → Prop) : Prop :=
  ∃ B, u.Keeps away p q exits B

variable {u : CodeUnit} {away : Nat → Prop} {p q r : Nat} {exits exits₁ exits₂ : Nat → Prop}

/-- A stretch ends behind its start. -/
lemma Keeps.le {B : Nat → Prop} (h : u.Keeps away p q exits B) : p ≤ q := by
  rcases h.start with hp | ⟨rfl, -⟩
  · exact Nat.le_of_lt (h.inside p hp).2
  · exact Nat.le_refl p

/-- One stretch after the other. -/
lemma Keeps.join {B₁ B₂ : Nat → Prop} (h₁ : u.Keeps away p r exits₁ B₁)
    (h₂ : u.Keeps away r q exits₂ B₂) (hexits₁ : ∀ t, exits₁ t → t = r ∨ exits t)
    (hexits₂ : ∀ t, exits₂ t → exits t) :
    u.Keeps away p q exits fun x => B₁ x ∨ B₂ x := by
  -- what leaves the first stretch enters the second one, or leaves both
  have hmiddle : ∀ t, exits₁ t → (t = r ∧ B₂ t) ∨ exits t := by
    intro t ht
    rcases hexits₁ t ht with rfl | ht
    · exact h₂.start.imp (fun h => ⟨rfl, h⟩) fun h => hexits₂ t h.2
    · exact .inr ht
  refine ⟨?_, ?_, ?_, ?_⟩
  · rcases h₁.start with hp | ⟨rfl, -⟩
    · exact .inl (.inl hp)
    · exact h₂.start.imp .inr (And.imp_right (hexits₂ p))
  · rintro x (hx | hx)
    · exact (h₁.inside x hx).imp_right fun hlt => Nat.lt_of_lt_of_le hlt h₂.le
    · exact (h₂.inside x hx).imp_left (Nat.le_trans h₁.le)
  · rintro x op (hx | hx) hop hjump hret
    · rcases h₁.falls x op hx hop hjump hret with ht | ht
      · exact .inl (.inl ht)
      · exact (hmiddle _ ht).imp_left fun h => .inr h.2
    · exact (h₂.falls x op hx hop hjump hret).imp .inr (hexits₂ _)
  · rintro x op t (hx | hx) hop ht
    · rcases h₁.jumps x op t hx hop ht with ⟨hlt, ht⟩ | ht | ht
      · exact .inl ⟨hlt, .inl ht⟩
      · rcases hmiddle t ht with ⟨rfl, ht⟩ | ht
        · exact .inl ⟨(h₁.inside x hx).2, .inr ht⟩
        · exact .inr (.inl ht)
      · exact .inr (.inr ht)
    · exact (h₂.jumps x op t hx hop ht).imp (And.imp_right .inr) (.imp_left (hexits₂ t))

namespace Stretch

/-- More exits may be listed. -/
lemma mono (h : u.Stretch away p q exits₁) (hexits : ∀ t, exits₁ t → exits t) :
    u.Stretch away p q exits := by
  obtain ⟨B, h⟩ := h
  exact ⟨B, h.start.imp_right (And.imp_right (hexits p)), h.inside,
    fun x op hx hop hjump hret => (h.falls x op hx hop hjump hret).imp_right (hexits _),
    fun x op t hx hop ht => (h.jumps x op t hx hop ht).imp_right (.imp_left (hexits t))⟩

/-- An empty stretch is left where it begins. -/
lemma empty (h : exits p) : u.Stretch away p p exits :=
  ⟨fun _ => False, .inr ⟨rfl, h⟩, nofun, nofun, nofun⟩

/-- One instruction. -/
lemma one {op : Opcode} (hop : u.Reads p op)
    (hfall : op ≠ .jump → op ≠ .ret → exits (p + op.size))
    (hjump : ∀ t, op.isJump = true → u.code.Holds p ⟨op, [t]⟩ → exits t ∨ away t) :
    u.Stretch away p (p + op.size) exits := by
  refine ⟨(· = p), .inl rfl, ?_, ?_, ?_⟩
  · rintro _ rfl
    exact ⟨Nat.le_refl _, Nat.lt_add_of_pos_right op.size_pos⟩
  · rintro _ op' rfl hop' hnojump hnoret
    obtain rfl := Option.some.inj (hop'.symm.trans hop)
    exact .inr (hfall hnojump hnoret)
  · rintro _ op' t rfl hisJump ht
    obtain rfl := Option.some.inj (ht.op.symm.trans hop)
    exact .inr (hjump t hisJump ht)

/-- One stretch after the other. -/
lemma join (h₁ : u.Stretch away p r exits₁) (h₂ : u.Stretch away r q exits₂)
    (hexits₁ : ∀ t, exits₁ t → t = r ∨ exits t) (hexits₂ : ∀ t, exits₂ t → exits t) :
    u.Stretch away p q exits := by
  obtain ⟨B₁, h₁⟩ := h₁
  obtain ⟨B₂, h₂⟩ := h₂
  exact ⟨_, h₁.join h₂ hexits₁ hexits₂⟩

/-- One stretch after another one that is left at its end only. -/
lemma andThen (h₁ : u.Stretch away p r (· = r)) (h₂ : u.Stretch away r q exits) :
    u.Stretch away p q exits := h₁.join h₂ (fun _ => .inl) fun _ => id

/-- An instruction that goes on behind itself. -/
lemma plain {op : Opcode} (hop : u.Reads p op) (hjump : op.isJump = false) :
    u.Stretch away p (p + op.size) (· = p + op.size) :=
  one hop (fun _ _ => rfl) fun _ h => by rw [hjump] at h; cases h

/-- A jump leads to its target only. -/
lemma jump {t : Nat} (h : u.code.Holds p ⟨.jump, [t]⟩) :
    u.Stretch away p (p + 3) (· = t) := by
  refine one h.op (fun hne => absurd rfl hne) fun t' _ ht' => .inl ?_
  cases h.unique ht'
  rfl

/-- A conditional jump leads to its target or behind itself. -/
lemma jumpIf {op : Opcode} {t : Nat} (h : u.code.Holds p ⟨op, [t]⟩) :
    u.Stretch away p (p + op.size) fun y => y = p + op.size ∨ y = t := by
  refine one h.op (fun _ _ => .inl rfl) fun t' _ ht' => .inl (.inr ?_)
  cases h.unique ht'
  rfl

end Stretch

/-! ## Operands -/

/-- Straight code is left at its end. -/
lemma Straight.stretch (h : u.Straight p q) : u.Stretch away p q (· = q) := by
  induction h with
  | nil p => exact .empty rfl
  | cons hop hjump _ _ ih => exact (Stretch.plain hop hjump).andThen ih

/-- All ways of a call lead to its end. -/
lemma Dispatches.stretch {arguments : Nat → Nat → Prop} {closure builtin : Nat}
    (h : u.Dispatches arguments p q closure builtin)
    (hargs : ∀ {x y}, arguments x y → u.Stretch away x y (· = y)) :
    u.Stretch away p q (· = q) := by
  obtain ⟨hdup, his, htoBuiltin⟩ := h.toBuiltin
  obtain ⟨hdup', his', htoClosure⟩ := h.toClosure
  have htests : u.Stretch away p (p + 10) fun y => y = p + 10 ∨ y = builtin ∨ y = closure := by
    have hbuiltin : u.Stretch away p (p + 5) fun y => y = p + 5 ∨ y = builtin :=
      (Stretch.plain hdup rfl).andThen ((Stretch.plain his rfl).andThen (.jumpIf htoBuiltin))
    have hclosure : u.Stretch away (p + 5) (p + 10) fun y => y = p + 10 ∨ y = closure :=
      (Stretch.plain hdup' rfl).andThen ((Stretch.plain his' rfl).andThen (.jumpIf htoClosure))
    exact hbuiltin.join hclosure (fun _ ht => ht.imp_right fun h => .inr (.inl h))
      fun _ ht => ht.imp_right .inr
  have hspecial : u.Stretch away (p + 10) closure (· = q) := by
    obtain ⟨r, hcode, happly, hj, rfl⟩ := h.special
    exact hcode.stretch.andThen ((Stretch.plain happly rfl).andThen (.jump hj))
  have hclosure : u.Stretch away closure builtin (· = q) := by
    obtain ⟨r, hcast, hcode, happly, hj, rfl⟩ := h.closure
    exact (Stretch.plain hcast rfl).andThen ((hargs hcode).andThen
      ((Stretch.plain happly rfl).andThen (.jump hj)))
  have hbuiltin : u.Stretch away builtin q (· = q) := by
    obtain ⟨r, hcast, hcode, happly, rfl⟩ := h.builtin
    exact (Stretch.plain hcast rfl).andThen ((hargs hcode).andThen (Stretch.plain happly rfl))
  have htwo : u.Stretch away p closure fun y => y = closure ∨ y = builtin ∨ y = q :=
    htests.join hspecial (by tauto) fun _ ht => .inr (.inr ht)
  have hthree : u.Stretch away p builtin fun y => y = builtin ∨ y = q :=
    htwo.join hclosure (by tauto) fun _ ht => .inr ht
  exact hthree.join hbuiltin (fun _ ht => ht) fun _ ht => ht

/-- The code of an operand is left at its end. -/
lemma Lined.stretch {cs : Calls} (h : u.Lined cs p q) : u.Stretch away p q (· = q) := by
  induction cs generalizing p q with
  | none => exact Straight.stretch h
  | call arguments rest ihArguments ihRest =>
    obtain ⟨r, s, closure, builtin, hstraight, hcall, hrest⟩ := h
    exact hstraight.stretch.andThen ((hcall.stretch ihArguments).andThen (ihRest hrest))

/-! ## Statements -/

variable {lands : Label → Nat → Prop}

/-- The offsets that labels stand for. -/
abbrev Landings (lands : Label → Nat → Prop) (t : Nat) : Prop := ∃ l, lands l t

/-- The code of a statement is left at its end, and by jumps to labels; that of a transfer by such
jumps only. -/
lemma StatementAt.stretch {s : Statement Flow.Term} (h : u.StatementAt lands s p q) :
    u.Stretch (Landings lands) p q fun y => s.isTransfer = false ∧ y = q := by
  cases h with
  | assign hvalue => exact hvalue.stretch.mono fun _ ht => ⟨rfl, ht⟩
  | eval hvalue => exact hvalue.stretch.mono fun _ ht => ⟨rfl, ht⟩
  | goto hl h =>
    refine Stretch.one h.op (fun hne => absurd rfl hne) fun t' _ ht' => .inr ?_
    cases h.unique ht'
    exact ⟨_, hl⟩
  | branch hcondition hop hno h hyes h' =>
    rename_i op r ty tn
    have hsize : op.size = 3 := by rcases hop with rfl | rfl <;> rfl
    have hfirst : u.Stretch (Landings lands) r (r + op.size) (· = r + op.size) := by
      refine Stretch.one h.op (fun _ _ => rfl) fun t' _ ht' => .inr ?_
      cases h.unique ht'
      exact ⟨_, hno⟩
    rw [hsize] at hfirst
    refine hcondition.stretch.andThen (hfirst.andThen ?_)
    refine Stretch.one h'.op (fun hne => absurd rfl hne) fun t' _ ht' => .inr ?_
    cases h'.unique ht'
    exact ⟨_, hyes⟩
  | ret hvalue h =>
    exact hvalue.stretch.andThen (.one h (fun _ hne => absurd rfl hne) nofun)

/-- The code of a block is left by jumps to labels only. -/
theorem StatementsAt.stretch {first : List (Statement Flow.Term)} {last : Statement Flow.Term}
    (hlast : last.isTransfer = true) (h : u.StatementsAt lands (first ++ [last]) p q) :
    u.Stretch (Landings lands) p q fun _ => False := by
  induction first generalizing p with
  | nil =>
    obtain ⟨_, hs, rfl⟩ := h
    exact hs.stretch.mono fun _ ht => by rw [hlast] at ht; cases ht.1
  | cons s first ih =>
    obtain ⟨r, hs, hrest⟩ := h
    exact hs.stretch.join (ih hrest) (fun _ ht => .inl ht.2) fun _ => id

/-! ## Blocks -/

/-- The code of a block, and that no other block begins in it. -/
structure BlockIn (u : CodeUnit) (lands : Label → Nat → Prop) (starts : List Nat) (i p q : Nat) :
    Prop where
  lt : p < q
  stretch : u.Stretch (Landings lands) p q fun _ => False
  alone : ∀ j t, starts[j]? = some t → p ≤ t → t < q → j = i

/-- Blocks begin at or behind where the code of all of them begins. -/
lemma BlocksAt.le {g : Graph} {starts : List Nat} (h : u.BlocksAt lands g starts p q)
    (hclosed : ∀ b ∈ g, b.Closed) : ∀ t ∈ starts, p ≤ t := by
  induction g generalizing starts p with
  | nil =>
    cases starts with
    | nil => simp
    | cons start starts => exact h.elim
  | cons b g ih =>
    cases starts with
    | nil => exact h.elim
    | cons start starts =>
      obtain ⟨rfl, r, hb, hg⟩ := h
      obtain ⟨first, last, hstatements, hlast⟩ := hclosed b (by simp)
      obtain ⟨B, hB⟩ := StatementsAt.stretch hlast (hstatements ▸ hb)
      intro t ht
      rcases List.mem_cons.1 ht with rfl | ht
      · exact Nat.le_refl _
      · exact Nat.le_trans hB.le (ih hg (fun c hc => hclosed c (by simp [hc])) t ht)

/-- The code of a block of a graph. -/
theorem BlocksAt.block {g : Graph} {starts : List Nat} (h : u.BlocksAt lands g starts p q)
    (hclosed : ∀ b ∈ g, b.Closed) {i start : Nat} (hstart : starts[i]? = some start) :
    ∃ r, u.BlockIn lands starts i start r := by
  induction g generalizing starts p i with
  | nil =>
    cases starts with
    | nil => simp at hstart
    | cons start starts => exact h.elim
  | cons b g ih =>
    cases starts with
    | nil => exact h.elim
    | cons first starts =>
      obtain ⟨rfl, r, hb, hg⟩ := h
      have hrest : ∀ c ∈ g, c.Closed := fun c hc => hclosed c (by simp [hc])
      obtain ⟨before, last, hstatements, hlast⟩ := hclosed b (by simp)
      have hstretch := StatementsAt.stretch hlast (hstatements ▸ hb)
      have hlt : first < r := by
        obtain ⟨B, hB⟩ := hstretch
        rcases hB.start with hp | ⟨-, ⟨⟩⟩
        exact (hB.inside _ hp).2
      cases i with
      | zero =>
        cases hstart
        refine ⟨r, hlt, hstretch, fun j t ht _ hin => ?_⟩
        cases j with
        | zero => rfl
        | succ j =>
          have hle := hg.le hrest t (List.mem_of_getElem? ht)
          omega
      | succ i =>
        obtain ⟨s, hblock⟩ := ih hg hrest hstart
        refine ⟨s, hblock.lt, hblock.stretch, fun j t ht hin hin' => ?_⟩
        cases j with
        | zero =>
          cases ht
          have hle := hg.le hrest start (List.mem_of_getElem? hstart)
          omega
        | succ j => exact congrArg Nat.succ (hblock.alone j t ht hin hin')

end CodeUnit

end CallByNeed
