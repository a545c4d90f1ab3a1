import CallByNeed.Proofs.Code.Decoding
import CallByNeed.Proofs.Discipline.Layout

/-!
# Stretches of code with a layout everywhere

A stretch of code has a chart if each of its instructions has a layout of the stack, its rule holds
there, and execution goes on at an instruction of the stretch with the layout it has, or leaves the
stretch at one of the listed exits. Instructions lie next to each other from the start of the stretch
to its end.

Stretches are put together at their ends (`Region.join`): what leaves the first one at the start of
the second one has to have the layout the second one begins with. Code that is entered at its start
and left at its end only is described by what it finds on top of the stack and what it leaves there
(`Leaves`).
-/

namespace CallByNeed

/-! ## Charts -/

/-- The layouts of the instructions from `p` up to `q`. The stretch is entered at `p` with the layout
`Γ` and left as `exits` says. -/
structure Charts (z : Slots) (u : CodeUnit) (p : Nat) (Γ : Layout) (q : Nat)
    (exits : Nat → Layout → Prop) (T : Nat → Option Layout) : Prop where
  le : p ≤ q
  entry : (p < q ∧ T p = some Γ) ∨ (p = q ∧ exits p Γ)
  inside : ∀ t Δ, T t = some Δ → p ≤ t ∧ t < q
  rule : ∀ t Δ, T t = some Δ → ∃ i succs, u.code.Holds t i ∧ Rule z u t i Δ succs ∧
    (t + i.op.size = q ∨ (T (t + i.op.size)).isSome) ∧
    ∀ r ∈ succs, T r.1 = some r.2 ∨ exits r.1 r.2

/-- A stretch of code that has a chart. -/
def Region (z : Slots) (u : CodeUnit) (p : Nat) (Γ : Layout) (q : Nat)
    (exits : Nat → Layout → Prop) : Prop :=
  ∃ T, Charts z u p Γ q exits T

/-- Left at one offset only. -/
abbrev OnlyAt (q : Nat) (Γ : Layout) : Nat → Layout → Prop := fun t Δ => t = q ∧ Δ = Γ

namespace Charts

variable {z : Slots} {u : CodeUnit} {p q r : Nat} {Γ Δ : Layout}
  {exits exits₁ exits₂ : Nat → Layout → Prop} {T T₁ T₂ : Nat → Option Layout}

/-- The chart of two stretches. -/
def both (r : Nat) (T₁ T₂ : Nat → Option Layout) (t : Nat) : Option Layout :=
  if t < r then T₁ t else T₂ t

lemma both_left (h : Charts z u p Γ r exits T₁) {t : Nat} {Θ : Layout} (ht : T₁ t = some Θ) :
    both r T₁ T₂ t = some Θ := by
  rw [both, if_pos (h.inside t Θ ht).2, ht]

lemma both_right (h : Charts z u r Δ q exits T₂) {t : Nat} {Θ : Layout} (ht : T₂ t = some Θ) :
    both r T₁ T₂ t = some Θ := by
  rw [both, if_neg (Nat.not_lt.2 (h.inside t Θ ht).1), ht]

/-- One stretch after the other. -/
lemma join (h₁ : Charts z u p Γ r exits₁ T₁) (h₂ : Charts z u r Δ q exits₂ T₂)
    (hexits₁ : ∀ t Θ, exits₁ t Θ → (t = r ∧ Θ = Δ) ∨ (t ≠ r ∧ exits t Θ))
    (hexits₂ : ∀ t Θ, exits₂ t Θ → exits t Θ) :
    Charts z u p Γ q exits (both r T₁ T₂) := by
  have hleft : ∀ {t Θ}, T₁ t = some Θ → both r T₁ T₂ t = some Θ := h₁.both_left
  have hright : ∀ {t Θ}, T₂ t = some Θ → both r T₁ T₂ t = some Θ := h₂.both_right
  -- where the second stretch begins, or ends if it is empty
  have hmiddle : (both r T₁ T₂ r = some Δ ∧ r < q) ∨ (r = q ∧ exits r Δ) := by
    rcases h₂.entry with ⟨hlt, hr⟩ | ⟨rfl, hr⟩
    · exact .inl ⟨hright hr, hlt⟩
    · exact .inr ⟨rfl, hexits₂ _ _ hr⟩
  refine ⟨Nat.le_trans h₁.le h₂.le, ?_, fun t Θ ht => ?_, fun t Θ ht => ?_⟩
  · rcases h₁.entry with ⟨hlt, hp⟩ | ⟨rfl, hp⟩
    · exact .inl ⟨Nat.lt_of_lt_of_le hlt h₂.le, hleft hp⟩
    · rcases hexits₁ p Γ hp with ⟨-, rfl⟩ | ⟨hne, -⟩
      · exact hmiddle.imp_left And.symm
      · exact absurd rfl hne
  · rw [both] at ht
    split at ht
    · exact (h₁.inside t Θ ht).imp_right fun h => Nat.lt_of_lt_of_le h h₂.le
    · exact (h₂.inside t Θ ht).imp_left (Nat.le_trans h₁.le)
  · rw [both] at ht
    split at ht
    · obtain ⟨i, succs, hi, hrule, hnext, hsuccs⟩ := h₁.rule t Θ ht
      refine ⟨i, succs, hi, hrule, ?_, fun s hs => ?_⟩
      · rcases hnext with heq | hnext
        · rw [heq]
          rcases hmiddle with ⟨hr, -⟩ | ⟨hr, -⟩
          · exact .inr (by rw [hr]; rfl)
          · exact .inl hr
        · obtain ⟨Θ', hΘ'⟩ := Option.isSome_iff_exists.1 hnext
          exact .inr (by rw [hleft hΘ']; rfl)
      · rcases hsuccs s hs with hT | he
        · exact .inl (hleft hT)
        · rcases hexits₁ s.1 s.2 he with ⟨hr, hΔ⟩ | ⟨-, he⟩
          · rw [hr, hΔ]
            exact hmiddle.imp And.left And.right
          · exact .inr he
    · obtain ⟨i, succs, hi, hrule, hnext, hsuccs⟩ := h₂.rule t Θ ht
      refine ⟨i, succs, hi, hrule, ?_, fun s hs => ?_⟩
      · refine hnext.imp_right fun h => ?_
        obtain ⟨Θ', hΘ'⟩ := Option.isSome_iff_exists.1 h
        rw [hright hΘ']
        rfl
      · exact (hsuccs s hs).imp hright (hexits₂ _ _)

/-- More exits may be listed. -/
lemma mono (h : Charts z u p Γ q exits₁ T) (hexits : ∀ t Θ, exits₁ t Θ → exits t Θ) :
    Charts z u p Γ q exits T where
  le := h.le
  entry := h.entry.imp_right (And.imp_right (hexits p Γ))
  inside := h.inside
  rule t Δ ht := by
    obtain ⟨i, succs, hi, hrule, hnext, hsuccs⟩ := h.rule t Δ ht
    exact ⟨i, succs, hi, hrule, hnext, fun s hs => (hsuccs s hs).imp_right (hexits _ _)⟩

end Charts

namespace Region

variable {z : Slots} {u : CodeUnit} {p q r : Nat} {Γ Δ : Layout}
  {exits exits₁ exits₂ : Nat → Layout → Prop}

lemma le (h : Region z u p Γ q exits) : p ≤ q := by
  obtain ⟨T, hT⟩ := h
  exact hT.le

/-- More exits may be listed. -/
lemma mono (h : Region z u p Γ q exits₁) (hexits : ∀ t Θ, exits₁ t Θ → exits t Θ) :
    Region z u p Γ q exits := by
  obtain ⟨T, hT⟩ := h
  exact ⟨T, hT.mono hexits⟩

/-- An empty stretch is left where it is entered. -/
lemma empty (h : exits p Γ) : Region z u p Γ p exits :=
  ⟨fun _ => none, Nat.le_refl p, .inr ⟨rfl, h⟩, by simp, by simp⟩

/-- One instruction. -/
lemma one {i : Instruction} {succs : List (Nat × Layout)} (hi : u.code.Holds p i)
    (h : Rule z u p i Γ succs) (hexits : ∀ r ∈ succs, exits r.1 r.2) :
    Region z u p Γ (p + i.op.size) exits := by
  have hpos := i.op.size_pos
  refine ⟨fun t => if t = p then some Γ else none, by omega, .inl ⟨by omega, if_pos rfl⟩,
    fun t Δ ht => ?_, fun t Δ ht => ?_⟩
  · split at ht
    · omega
    · cases ht
  · split at ht
    · cases ht
      rename_i ht
      subst ht
      exact ⟨i, succs, hi, h, .inl rfl, fun r hr => .inr (hexits r hr)⟩
    · cases ht

/-- One stretch after the other. -/
lemma join (h₁ : Region z u p Γ r exits₁) (h₂ : Region z u r Δ q exits₂)
    (hexits₁ : ∀ t Θ, exits₁ t Θ → (t = r ∧ Θ = Δ) ∨ (t ≠ r ∧ exits t Θ))
    (hexits₂ : ∀ t Θ, exits₂ t Θ → exits t Θ) : Region z u p Γ q exits := by
  obtain ⟨T₁, hT₁⟩ := h₁
  obtain ⟨T₂, hT₂⟩ := h₂
  exact ⟨_, hT₁.join hT₂ hexits₁ hexits₂⟩

/-- One stretch after another one that is left only there. -/
lemma andThen (h₁ : Region z u p Γ r (OnlyAt r Δ)) (h₂ : Region z u r Δ q exits) :
    Region z u p Γ q exits :=
  h₁.join h₂ (fun _ _ h => .inl h) fun _ _ h => h

/-- The last instruction is a jump. -/
lemma andJump {t : Nat} (h : Region z u p Γ r (OnlyAt r Δ)) (hj : u.code.Holds r ⟨.jump, [t]⟩) :
    Region z u p Γ (r + Opcode.jump.size) (OnlyAt t Δ) :=
  h.andThen (one hj (.jump t Δ) (by simp [OnlyAt]))

end Region

/-! ## Straight code -/

/-- Code that finds `pre` on top of the stack, leaves `post` there and goes on at its end. -/
def Leaves (pre post : Layout) (p q : Nat) (z : Assembly) (u : CodeUnit) : Prop :=
  ∀ Γ, Region z.slots u p (pre ++ Γ) q (OnlyAt q (post ++ Γ))

namespace Leaves

variable {z : Assembly} {u : CodeUnit} {p q r : Nat} {pre mid post : Layout}

lemma refl : Leaves pre pre p p z u := fun _ => .empty ⟨rfl, rfl⟩

lemma trans (h : Leaves pre mid p r z u) (h' : Leaves mid post r q z u) :
    Leaves pre post p q z u := fun Γ => (h Γ).andThen (h' Γ)

/-- More may lie below. -/
lemma under (Δ : Layout) (h : Leaves pre post p q z u) :
    Leaves (pre ++ Δ) (post ++ Δ) p q z u := by
  intro Γ
  rw [List.append_assoc, List.append_assoc]
  exact h (Δ ++ Γ)

/-- One instruction. -/
lemma one {i : Instruction} (hi : u.code.Holds p i) (h : Effect z.slots u i pre post)
    (hq : q = p + i.op.size) : Leaves pre post p q z u := by
  intro Γ
  rw [hq]
  exact .one hi (.effect h Γ) (by simp [OnlyAt])

end Leaves

end CallByNeed
