import CallByNeed.Flow.OfExpr
import CallByNeed.Proofs.Code.Unit
import CallByNeed.Proofs.Flow.Lines
import Mathlib.Data.List.Nodup

/-!
# What drafting leaves

`Drafts c S` is the specification of a piece `c` of drafting: `S` relates the identities taken before
it, its result, the lines it appends and the identities taken in the end. There is one rule for each
step of drafting and one for putting steps together.

Control can get to each statement of lines that are `Live`, so that the graph of a body has all of
them; nested bodies and call sites are `Numbered` if each has an identity of its own.
-/

namespace CallByNeed.Flow

open Drafting

/-! ## Reachable statements -/

namespace Graph

/-- The statement has been taken: it is in a block, in the open one or a finished one, or dropped. -/
def Building.Has (g : Building) (s : Statement Term) : Prop :=
  s ∈ g.blocks.flatMap Block.statements ∨ (∃ o, g.current = some o ∧ s ∈ o.statements) ∨
    s ∈ g.dropped

lemma Building.has_line {g : Building} {s : Statement Term} {line : Line Term}
    (h : g.Has s ∨ line = .statement s) : (g.line line).Has s := by
  have hclose : ∀ (o : Open) (last : Statement Term), s ∈ o.statements ∨ s = last →
      s ∈ (o.close last).statements := by
    intro o last h
    unfold Open.close
    simpa using h
  unfold Has at h ⊢
  cases hg : g.current with
  | none =>
    cases line with
    | label l =>
      simp only [Building.line, hg] at h ⊢
      rcases h with (h | ⟨o, ho, -⟩ | h) | h
      · exact .inl h
      · cases ho
      · exact .inr (.inr h)
      · cases h
    | statement st =>
      simp only [Building.line, hg] at h ⊢
      rcases h with (h | ⟨o, ho, -⟩ | h) | h
      · exact .inl h
      · cases ho
      · exact .inr (.inr (List.mem_cons_of_mem st h))
      · cases h
        exact .inr (.inr List.mem_cons_self)
  | some o =>
    have hblocks : ∀ b : Block, s ∈ g.blocks.flatMap Block.statements ∨ s ∈ b.statements →
        s ∈ (b :: g.blocks).flatMap Block.statements := by
      intro b h
      rw [List.flatMap_cons, List.mem_append]
      exact h.symm
    rw [hg] at h
    cases line with
    | label l =>
      simp only [Building.line, hg]
      split
      · rcases h with (h | ⟨o', ho, h⟩ | h) | h
        · exact .inl h
        · cases ho
          exact .inr (.inl ⟨_, rfl, h⟩)
        · exact .inr (.inr h)
        · cases h
      · rcases h with (h | ⟨o', ho, h⟩ | h) | h
        · exact .inl (hblocks _ (.inl h))
        · cases ho
          exact .inl (hblocks _ (.inr (hclose o _ (.inl h))))
        · exact .inr (.inr h)
        · cases h
    | statement st =>
      simp only [Building.line, hg]
      split
      · rcases h with (h | ⟨o', ho, h⟩ | h) | h
        · exact .inl (hblocks _ (.inl h))
        · cases ho
          exact .inl (hblocks _ (.inr (hclose o _ (.inl h))))
        · exact .inr (.inr h)
        · cases h
          exact .inl (hblocks _ (.inr (hclose o _ (.inr rfl))))
      · rcases h with (h | ⟨o', ho, h⟩ | h) | h
        · exact .inl h
        · cases ho
          exact .inr (.inl ⟨_, rfl, List.mem_cons_of_mem st h⟩)
        · exact .inr (.inr h)
        · cases h
          exact .inr (.inl ⟨_, rfl, List.mem_cons_self⟩)

/-- A statement of a body is in its graph, unless control cannot get there. -/
theorem mem_statements_or_unreachable {b : Body} {s : Statement Term} (h : s ∈ b.statements) :
    s ∈ (ofBody b).flatMap Block.statements ∨ s ∈ unreachable b := by
  have hfold : ∀ (lines : Body) (g : Building), g.Has s ∨ s ∈ lines.statements →
      (lines.foldl Building.line g).Has s := by
    intro lines
    induction lines with
    | nil => simp
    | cons line lines ih =>
      intro g hg
      refine ih (g.line line) ?_
      cases line with
      | label l => exact hg.imp (fun h => Building.has_line (.inl h)) id
      | statement st =>
        rcases hg with hg | hg
        · exact .inl (Building.has_line (.inl hg))
        · rcases List.mem_cons.1 hg with rfl | hg
          · exact .inl (Building.has_line (.inr rfl))
          · exact .inr hg
  have hall := hfold b .start (.inr h)
  unfold ofBody unreachable Building.ofBody
  revert hall
  generalize b.foldl Building.line .start = g
  intro hall
  rcases hall with hall | ⟨o, ho, hall⟩ | hall
  · left
    unfold Building.finish
    split
    · simp only [List.mem_flatMap, List.mem_reverse, List.mem_cons] at hall ⊢
      obtain ⟨block, hblock, hs⟩ := hall
      exact ⟨block, .inr hblock, hs⟩
    · simpa only [List.mem_flatMap, List.mem_reverse] using hall
  · left
    unfold Building.finish
    rw [ho]
    simp only [List.mem_flatMap, List.mem_reverse, List.mem_cons]
    exact ⟨_, .inl rfl, by simp [Open.close, hall]⟩
  · exact .inr (List.mem_reverse.2 hall)

end Graph

namespace Body

/-- If control gets to the first line, then it gets to every line and behind the last one. -/
def Live (b : Body) : Prop :=
  ∀ g : Graph.Building, g.current.isSome →
    (b.foldl Graph.Building.line g).current.isSome ∧
      (b.foldl Graph.Building.line g).dropped = g.dropped

lemma Live.nil : Live [] := fun _ h => ⟨h, rfl⟩

lemma Live.append {b c : Body} (hb : b.Live) (hc : Live c) : Live (b ++ c) := by
  intro g hg
  rw [List.foldl_append]
  obtain ⟨hb, hdropped⟩ := hb g hg
  obtain ⟨hc, hdropped'⟩ := hc _ hb
  exact ⟨hc, hdropped'.trans hdropped⟩

lemma Live.statement {s : Statement Term} (hs : s.isTransfer = false) :
    Live [.statement s] := by
  intro g hg
  obtain ⟨o, ho⟩ := Option.isSome_iff_exists.1 hg
  simp [Graph.Building.line, ho, hs]

/-- A label behind a transfer makes the next line reachable again. -/
lemma Live.transfer (s : Statement Term) (l : Label) : Live [.statement s, .label l] := by
  intro g hg
  obtain ⟨o, ho⟩ := Option.isSome_iff_exists.1 hg
  cases hs : s.isTransfer <;> simp [Graph.Building.line, ho, hs]

lemma Live.label (l : Label) : Live [.label l] := by
  intro g hg
  obtain ⟨o, ho⟩ := Option.isSome_iff_exists.1 hg
  simp only [List.foldl_cons, List.foldl_nil, Graph.Building.line, ho]
  split <;> simp

/-- Every statement of lines that are live and of one behind them is in the graph. -/
lemma Live.mem_statements {b : Body} (hb : b.Live) {s last : Statement Term}
    (h : s ∈ statements (b ++ [.statement last])) :
    s ∈ (Graph.ofBody (b ++ [.statement last])).flatMap Block.statements := by
  refine (Graph.mem_statements_or_unreachable h).resolve_right ?_
  unfold Graph.unreachable Graph.Building.ofBody
  rw [List.foldl_append]
  obtain ⟨hopen, hdropped⟩ := hb .start rfl
  obtain ⟨o, ho⟩ := Option.isSome_iff_exists.1 hopen
  have hempty : (b.foldl Graph.Building.line .start).dropped = [] := hdropped
  simp only [List.foldl_cons, List.foldl_nil, Graph.Building.line, ho]
  split <;> simp [hempty]

/-- The nested bodies and call sites in lines. -/
def meets (b : Body) : List Visit := b.statements.flatMap Statement.visits

@[simp] lemma meets_nil : meets [] = [] := rfl

@[simp] lemma meets_label (l : Label) (b : Body) : meets (.label l :: b) = meets b := rfl

@[simp] lemma meets_statement (s : Statement Term) (b : Body) :
    meets (.statement s :: b) = s.visits ++ meets b := rfl

@[simp] lemma meets_append (b c : Body) : meets (b ++ c) = meets b ++ meets c := by
  unfold meets
  rw [statements_append, List.flatMap_append]

end Body

/-! ## Identities -/

/-- No identity is given back. -/
structure Taken.Le (lo hi : Taken) : Prop where
  labels : lo.labels ≤ hi.labels
  slots : lo.slots ≤ hi.slots
  nodes : lo.nodes ≤ hi.nodes
  sites : lo.sites ≤ hi.sites

lemma Taken.Le.refl (lo : Taken) : lo.Le lo := ⟨Nat.le_refl _, Nat.le_refl _, Nat.le_refl _, Nat.le_refl _⟩

lemma Taken.Le.trans {lo mid hi : Taken} (h : lo.Le mid) (h' : mid.Le hi) : lo.Le hi :=
  ⟨Nat.le_trans h.labels h'.labels, Nat.le_trans h.slots h'.slots,
    Nat.le_trans h.nodes h'.nodes, Nat.le_trans h.sites h'.sites⟩

end CallByNeed.Flow

namespace CallByNeed

open CallByNeed.Flow

namespace Visit

/-- The identity was taken between two points of drafting. -/
def Within (lo hi : Taken) : Visit → Prop
  | .thunk d => lo.nodes ≤ d.node.id ∧ d.node.id < hi.nodes
  | .closure node _ => lo.nodes ≤ node.id ∧ node.id < hi.nodes
  | .site c => lo.sites ≤ c.id ∧ c.id < hi.sites

/-- The two have one identity. -/
def Alike : Visit → Visit → Prop
  | .thunk d, .thunk d' => d.node = d'.node
  | .closure node _, .closure node' _ => node = node'
  | .site c, .site c' => c.id = c'.id
  | _, _ => False

/-- Identities were taken in order, each for one thing. -/
structure Numbered (lo hi : Taken) (vs : List Visit) : Prop where
  within : ∀ v ∈ vs, v.Within lo hi
  unique : ∀ v ∈ vs, ∀ v' ∈ vs, v.Alike v' → v = v'

lemma Within.mono {lo lo' hi hi' : Taken} (hlo : lo'.Le lo) (hhi : hi.Le hi') {v : Visit}
    (h : v.Within lo hi) : v.Within lo' hi' := by
  cases v with
  | thunk d => exact ⟨Nat.le_trans hlo.nodes h.1, Nat.lt_of_lt_of_le h.2 hhi.nodes⟩
  | closure node p => exact ⟨Nat.le_trans hlo.nodes h.1, Nat.lt_of_lt_of_le h.2 hhi.nodes⟩
  | site c => exact ⟨Nat.le_trans hlo.sites h.1, Nat.lt_of_lt_of_le h.2 hhi.sites⟩

/-- What is taken earlier has another identity than what is taken later. -/
lemma Within.not_alike {lo mid hi : Taken} {v v' : Visit} (h : v.Within lo mid)
    (h' : v'.Within mid hi) : ¬ v.Alike v' ∧ ¬ v'.Alike v := by
  cases v <;> cases v' <;> simp only [Within, Alike, not_false_eq_true, and_self] at h h' ⊢
  case thunk.thunk d d' =>
    constructor
    · intro heq
      rw [heq] at h
      omega
    · intro heq
      rw [heq] at h'
      omega
  case closure.closure node p node' p' =>
    constructor
    · rintro rfl
      omega
    · rintro rfl
      omega
  case site.site c c' => omega

namespace Numbered

variable {lo mid hi : Taken} {vs ws : List Visit}

lemma nil : Numbered lo hi [] := ⟨nofun, nofun⟩

lemma mono {lo' hi' : Taken} (hlo : lo'.Le lo) (hhi : hi.Le hi') (h : Numbered lo hi vs) :
    Numbered lo' hi' vs := ⟨fun v hv => (h.within v hv).mono hlo hhi, h.unique⟩

lemma of_subset (h : Numbered lo hi vs) (hws : ∀ v ∈ ws, v ∈ vs) : Numbered lo hi ws :=
  ⟨fun v hv => h.within v (hws v hv), fun v hv v' hv' => h.unique v (hws v hv) v' (hws v' hv')⟩

lemma append (hlo : lo.Le mid) (hhi : mid.Le hi) (h : Numbered lo mid vs)
    (h' : Numbered mid hi ws) : Numbered lo hi (vs ++ ws) where
  within v hv := by
    rcases List.mem_append.1 hv with hv | hv
    · exact (h.within v hv).mono (.refl lo) hhi
    · exact (h'.within v hv).mono hlo (.refl hi)
  unique v hv v' hv' heq := by
    rcases List.mem_append.1 hv with hv | hv <;> rcases List.mem_append.1 hv' with hv' | hv'
    · exact h.unique v hv v' hv' heq
    · exact absurd heq ((h.within v hv).not_alike (h'.within v' hv')).1
    · exact absurd heq ((h.within v' hv').not_alike (h'.within v hv)).2
    · exact h'.unique v hv v' hv' heq

/-- One thing, met as often as it may be. -/
lemma of_forall_eq {v : Visit} (hv : v.Within lo hi) (h : ∀ w ∈ vs, w = v) : Numbered lo hi vs where
  within w hw := by
    rw [h w hw]
    exact hv
  unique w hw w' hw' _ := (h w hw).trans (h w' hw').symm

end Numbered

end Visit

namespace Flow

/-! ## The judgement -/

open Drafting

/-- What a piece of drafting does. -/
def Drafts {α : Type} (c : Drafting α) (S : Taken → α → Body → Taken → Prop) : Prop :=
  ∀ d x d', c d = .ok (x, d') → ∃ b, d'.lines.toList = d.lines.toList ++ b ∧ S d.taken x b d'.taken

namespace Drafts

variable {α β : Type} {c : Drafting α} {S S' : Taken → α → Body → Taken → Prop}

lemma mono (h : Drafts c S) (hS : ∀ lo x b hi, S lo x b hi → S' lo x b hi) : Drafts c S' := by
  intro d x d' hc
  obtain ⟨b, hb, hs⟩ := h d x d' hc
  exact ⟨b, hb, hS _ _ _ _ hs⟩

protected lemma pure (x : α) :
    Drafts (pure x) fun lo y b hi => y = x ∧ b = [] ∧ hi = lo := by
  intro d y d' h
  cases h
  exact ⟨[], (List.append_nil _).symm, rfl, rfl, rfl⟩

protected lemma throw (e : CompileError) : Drafts (throw e : Drafting α) S := by
  intro d x d' h
  cases h

/-- Running a step of drafting and then another one. -/
lemma bind_apply (c : Drafting α) (f : α → Drafting β) (d : Draft) :
    (c >>= f) d = match c d with
      | .ok (x, d) => f x d
      | .error e => .error e := by
  show Except.bind (c d) (fun r => f r.1 r.2) = _
  unfold Except.bind
  cases c d <;> rfl

protected lemma bind {f : α → Drafting β} {Q : α → Taken → β → Body → Taken → Prop}
    (h : Drafts c S) (h' : ∀ x, Drafts (f x) (Q x)) :
    Drafts (c >>= f) fun lo y b hi => ∃ x mid b₁ b₂, b = b₁ ++ b₂ ∧ S lo x b₁ mid ∧
      Q x mid y b₂ hi := by
  intro d y d' hc
  rw [bind_apply] at hc
  cases hx : c d with
  | error e =>
    rw [hx] at hc
    cases hc
  | ok r =>
    obtain ⟨x, d₁⟩ := r
    rw [hx] at hc
    obtain ⟨b₁, hb₁, hS⟩ := h d x d₁ hx
    obtain ⟨b₂, hb₂, hQ⟩ := h' x d₁ y d' hc
    exact ⟨b₁ ++ b₂, by rw [hb₂, hb₁, List.append_assoc], x, d₁.taken, b₁, b₂, rfl, hS, hQ⟩

/-! ### Steps -/

lemma label : Drafts (Drafting.label .counting) fun lo l b hi =>
    l = ⟨lo.labels⟩ ∧ b = [] ∧ hi = { lo with labels := lo.labels + 1 } := by
  intro d l d' h
  cases h
  exact ⟨[], (List.append_nil _).symm, rfl, rfl, rfl⟩

lemma slot : Drafts (Drafting.slot .counting) fun lo i b hi =>
    i = lo.slots ∧ b = [] ∧ hi = { lo with slots := lo.slots + 1 } := by
  intro d l d' h
  cases h
  exact ⟨[], (List.append_nil _).symm, rfl, rfl, rfl⟩

lemma node : Drafts (Drafting.node .counting) fun lo node b hi =>
    node = ⟨lo.nodes⟩ ∧ b = [] ∧ hi = { lo with nodes := lo.nodes + 1 } := by
  intro d l d' h
  cases h
  exact ⟨[], (List.append_nil _).symm, rfl, rfl, rfl⟩

lemma site (call : Call) : Drafts (Drafting.site .counting call) fun lo c b hi =>
    c = ⟨lo.sites, call⟩ ∧ b = [] ∧ hi = { lo with sites := lo.sites + 1 } := by
  intro d l d' h
  cases h
  exact ⟨[], (List.append_nil _).symm, rfl, rfl, rfl⟩

lemma line (l : Line Term) : Drafts (Drafting.line l) fun lo _ b hi => b = [l] ∧ hi = lo := by
  intro d x d' h
  cases h
  exact ⟨[l], Array.toList_push, rfl, rfl⟩

/-- A nested body is set apart. -/
lemma nested {value : Drafting Term} {S : Taken → Term → Body → Taken → Prop}
    (h : Drafts value S) :
    Drafts (Drafting.nested value) fun lo body b hi => b = [] ∧ ∃ t lines,
      body = lines ++ [.statement (.ret t)] ∧ S lo t lines hi := by
  intro d body d' hc
  have hrun : Drafting.nested value d = match value { d with lines := #[] } with
      | .ok (t, d₁) => .ok ((d₁.lines.push (.statement (.ret t))).toList, { d₁ with lines := d.lines })
      | .error e => .error e := by
    show Except.bind (value { d with lines := #[] }) _ = _
    unfold Except.bind
    cases value { d with lines := #[] } <;> rfl
  rw [hrun] at hc
  cases hv : value { d with lines := #[] } with
  | error e =>
    rw [hv] at hc
    cases hc
  | ok r =>
    obtain ⟨t, d₁⟩ := r
    rw [hv] at hc
    obtain ⟨lines, hlines, hS⟩ := h _ t d₁ hv
    cases hc
    refine ⟨[], (List.append_nil _).symm, rfl, t, lines, ?_, hS⟩
    rw [Array.toList_push, hlines]
    rfl

end Drafts

end Flow

end CallByNeed
