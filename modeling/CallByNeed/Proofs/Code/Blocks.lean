import CallByNeed.Proofs.Code.Statements
import CallByNeed.Proofs.Flow.Blocks

/-!
# The code of graphs

Blocks are laid out one after the other, and the labels of a block are bound to where it begins.
Since no other label is bound, a jump gets to the block that the graph says. A run of the finished
unit is followed block by block: it ends as the graph does, and is cut off by every bound if the
graph is.
-/

namespace CallByNeed

open CallByNeed.Flow (Term Action Label Exit Block Graph)

/-! ## Laying out blocks -/

/-- What a piece of emitting does that binds the labels `ls`. -/
def Lays (nested : Nested) (vs : List Visit) (ls : List Label) (c : Assemble Unit)
    (S : Nat → Nat → Assembly → CodeUnit → Prop) : Prop :=
  ∀ a x a', c a = .ok x a' → a.Sound →
    (a.Extends a' ∧ a'.Sound ∧ (∀ placed, a.Binds placed → a'.Binds (placed ++ ls)) ∧
      ∀ ds, a.Lists nested ds → a'.Lists nested (ds.addAll vs)) ∧
    ∀ z u, z.Links u → a'.Extends z → S a.position a'.position z u

namespace Lays

variable {nested : Nested} {vs ws : List Visit} {ls ms : List Label} {c d : Assemble Unit}
  {S T : Nat → Nat → Assembly → CodeUnit → Prop}

/-- A piece that binds no label. -/
lemma of_emits {S : Unit → Nat → Nat → Assembly → CodeUnit → Prop}
    (h : Emits nested [] vs c S) : Lays nested vs [] c (S ()) := by
  intro a x a' hc ha
  obtain ⟨hg, hs⟩ := h a x a' hc ha nofun
  refine ⟨⟨hg.toExtends, hg.sound, fun placed hp => ?_, hg.notes⟩, hs⟩
  rw [List.append_nil]
  exact hg.binds placed hp

/-- Less may be claimed. -/
lemma mono (h : Lays nested vs ls c S) (hS : ∀ p q z u, z.Links u → S p q z u → T p q z u) :
    Lays nested vs ls c T := by
  intro a x a' hc ha
  obtain ⟨hg, hs⟩ := h a x a' hc ha
  exact ⟨hg, fun z u hz he => hS _ _ _ _ hz (hs z u hz he)⟩

/-- One piece after the other. -/
lemma seq (h : Lays nested vs ls c S) (h' : Lays nested ws ms d T) :
    Lays nested (vs ++ ws) (ls ++ ms) (c >>= fun _ => d)
      (fun p r z u => ∃ q, S p q z u ∧ T q r z u) := by
  intro a y b hcd ha
  rw [Assemble.bind_apply] at hcd
  cases hc : c a with
  | error e a' =>
    rw [hc] at hcd
    cases hcd
  | ok x a' =>
    rw [hc] at hcd
    obtain ⟨⟨he, hsound, hbinds, hnotes⟩, hs⟩ := h a x a' hc ha
    obtain ⟨⟨he', hsound', hbinds', hnotes'⟩, hs'⟩ := h' a' y b hcd hsound
    refine ⟨⟨he.trans he', hsound', fun placed hp => ?_, fun ds hds => ?_⟩, fun z u hz hz' =>
      ⟨a'.position, hs z u hz (he'.trans hz'), hs' z u hz hz'⟩⟩
    · rw [← List.append_assoc]
      exact hbinds' _ (hbinds placed hp)
    · rw [Notes.addAll_append]
      exact hnotes' _ (hnotes ds hds)

/-- Binding a label. -/
lemma placeLabel (l : Label) :
    Lays nested [] [l] (Assemble.resolve l >>= fun m => Assemble.place m) (fun p q z _ =>
      q = p ∧ z.LabelAt l p) := by
  intro a x a' hc ha
  rw [Assemble.bind_apply] at hc
  have hresolve : Emits nested [] [] (Assemble.resolve l) _ := Emits.resolve l
  cases hr : Assemble.resolve l a with
  | error e b =>
    rw [hr] at hc
    cases hc
  | ok m b =>
    rw [hr] at hc
    obtain ⟨hg, hs⟩ := hresolve a m b hr ha nofun
    obtain ⟨j, hj, rfl⟩ := Assembly.place_eq_ok hc
    have hplaced : ({ b with jumps := j } : Assembly).jumps.position? m = some b.position := by
      rw [Jumps.position?_bind hj, if_pos rfl]
    obtain ⟨hposition, hlabel, -⟩ := Assembly.resolve_eq_ok hr
    refine ⟨⟨hg.toExtends.trans (Assembly.extends_bind hj), hg.sound.bind hj,
      fun placed hp id i t hi ht => ?_, fun ds hds => ?_⟩, fun z u hz he => ?_⟩
    · rw [Jumps.bind_labels hj] at hi
      by_cases him : m = ⟨i⟩
      · obtain rfl := him
        have hid := hg.sound.jumps.inj _ _ _ hlabel hi
        exact ⟨l, by simp, hid⟩
      · rw [Jumps.position?_bind hj, if_neg him] at ht
        obtain ⟨l', hl', hid⟩ := hg.binds placed hp id i t hi ht
        exact ⟨l', by simp [hl'], hid⟩
    · have hlists := hg.notes ds hds
      exact ⟨hlists.thunks, hlists.closures, hlists.sites⟩
    · refine ⟨hposition, m.index, he.labels _ _ ?_, ?_⟩
      · rw [Jumps.bind_labels hj]
        exact hlabel
      · rw [← hposition]
        exact he.marks m _ hplaced

/-- Binding the labels of a block. -/
lemma placeLabels (ls : List Label) :
    Lays nested [] ls (Assemble.placeLabels ls) (fun p q z _ =>
      q = p ∧ ∀ l ∈ ls, z.LabelAt l p) := by
  induction ls with
  | nil => exact (of_emits (Emits.nothing ())).mono fun _ _ _ _ _ h => ⟨h.2, by simp⟩
  | cons l ls ih =>
    have hgroup : Assemble.placeLabels (l :: ls)
        = (Assemble.resolve l >>= fun m => Assemble.place m) >>= fun _ =>
          Assemble.placeLabels ls := (bind_assoc _ _ _).symm
    rw [hgroup]
    refine ((placeLabel l).seq ih).mono ?_
    rintro p q z u _ ⟨_, ⟨rfl, hl⟩, rfl, hls⟩
    refine ⟨rfl, fun l' hl' => ?_⟩
    rcases List.mem_cons.1 hl' with rfl | hl'
    · exact hl
    · exact hls l' hl'

/-- Laying out a block binds its labels to where its statements begin. -/
lemma block {S : Nat → Nat → Assembly → CodeUnit → Prop} (b : Block)
    (h : Emits nested [] (b.statements.flatMap Flow.Statement.visits)
      (Assemble.statements nested b.statements) (fun _ => S)) :
    Lays nested (b.statements.flatMap Flow.Statement.visits) b.labels (Assemble.block nested b)
      (fun p q z u => (∀ l ∈ b.labels, z.LabelAt l p) ∧ S p q z u) := by
  have hcheck : Lays nested [] [] (do
      let a ← get
      if !a.emitter.endsInTransfer then Assemble.defect (.blockFallsThrough a.unit) :
        Assemble Unit) (fun p q _ _ => q = p) := by
    intro a x a' hc ha
    rw [Assemble.get_bind_apply] at hc
    split at hc
    · cases hc
    · exact of_emits ((Emits.nothing ()).mono fun _ _ _ _ _ _ h => h.2) a x a' hc ha
  refine cast ?_ (((placeLabels b.labels).seq ((of_emits h).seq hcheck)).mono
    (T := fun p q z u => (∀ l ∈ b.labels, z.LabelAt l p) ∧ S p q z u) ?_)
  · simp only [List.nil_append, List.append_nil]
    rfl
  · rintro p q z u _ ⟨_, ⟨rfl, hl⟩, r, hs, rfl⟩
    exact ⟨hl, hs⟩

end Lays

/-- Where the blocks of a graph begin in the finished unit, and what their code does. -/
structure Laid (g : Graph) (starts : List Nat) (z : Assembly) (u : CodeUnit) : Prop where
  length : starts.length = g.length
  labels : ∀ (i : Nat) b p, g[i]? = some b → starts[i]? = some p → ∀ l ∈ b.labels, z.LabelAt l p
  code : ∀ (i : Nat) b p, g[i]? = some b → starts[i]? = some p →
    ∃ q, CarriesOut (fun X => X.statements b.statements) p q z u

/-- No blocks. -/
lemma Laid.nil {z : Assembly} {u : CodeUnit} : Laid [] [] z u := ⟨rfl, nofun, nofun⟩

/-- One more block, in front. -/
lemma Laid.cons {b : Block} {g : Graph} {p q : Nat} {starts : List Nat} {z : Assembly} {u : CodeUnit}
    (h : Laid g starts z u) (hlabels : ∀ l ∈ b.labels, z.LabelAt l p)
    (hcode : CarriesOut (fun X => X.statements b.statements) p q z u) :
    Laid (b :: g) (p :: starts) z u := by
  refine ⟨by simp [h.length], ?_, ?_⟩
  · intro i b' p' hb' hp'
    cases i with
    | zero =>
      cases hb'
      cases hp'
      exact hlabels
    | succ i => exact h.labels i b' p' hb' hp'
  · intro i b' p' hb' hp'
    cases i with
    | zero =>
      cases hb'
      cases hp'
      exact ⟨q, hcode⟩
    | succ i => exact h.code i b' p' hb' hp'

/-- Laying out a graph. -/
theorem Lays.blocks {nested : Nested} (g : Graph) :
    Lays nested ((g.flatMap Block.statements).flatMap Flow.Statement.visits)
      (g.flatMap Block.labels) (Assemble.blocks nested g) (fun p _ z u =>
        ∃ starts, Laid g starts z u ∧ (g ≠ [] → starts[0]? = some p)) := by
  induction g with
  | nil =>
    refine (of_emits (Emits.nothing ())).mono ?_
    rintro p q z u _ -
    exact ⟨[], .nil, by simp⟩
  | cons b g ih =>
    rw [List.flatMap_cons, List.flatMap_append, List.flatMap_cons]
    refine ((Lays.block b (Emits.statements b.statements)).seq ih).mono ?_
    rintro p q z u _ ⟨r, ⟨hlabels, hcode⟩, starts, hlaid, -⟩
    exact ⟨p :: starts, hlaid.cons hlabels hcode, fun _ => rfl⟩

/-! ## Following a run -/

section

variable {g : Graph} {starts : List Nat} {z : Assembly} {u : CodeUnit} {X : Site}

/-- A label that is bound is that of a block, and is bound to where the first such block begins. -/
lemma Laid.blockOf? (h : Laid g starts z u) (hbinds : z.Binds (g.flatMap Block.labels)) {l : Label}
    {t : Nat} (hl : z.LabelAt l t) : ∃ i, g.blockOf? l = some i ∧ starts[i]? = some t := by
  obtain ⟨b, hb, hlb⟩ := List.mem_flatMap.1 (hbinds.mem hl)
  have hfind : ∃ i, g.blockOf? l = some i := by
    unfold Graph.blockOf?
    cases hi : g.findIdx? fun b => b.labels.contains l with
    | some i => exact ⟨i, rfl⟩
    | none =>
      have hnone := List.findIdx?_eq_none_iff.1 hi b hb
      rw [List.contains_iff_mem.2 hlb] at hnone
      cases hnone
  obtain ⟨i, hi⟩ := hfind
  refine ⟨i, hi, ?_⟩
  obtain ⟨hlt, hcontains, -⟩ := List.findIdx?_eq_some_iff_getElem.1 hi
  have hlt' : i < starts.length := by rw [h.length]; exact hlt
  have hat := h.labels i g[i] starts[i] (List.getElem?_eq_getElem hlt)
    (List.getElem?_eq_getElem hlt') l (List.contains_iff_mem.1 hcontains)
  rw [List.getElem?_eq_getElem hlt', hat.unique hl]

/-- A graph that is not cut off says how the run of its code ends. -/
theorem Laid.ends (h : Laid g starts z u) (hbinds : z.Binds (g.flatMap Block.labels))
    (hclosed : ∀ b ∈ g, b.Closed) (hX : X.On z u) (bound : Nat) {i p : Nat}
    (hp : starts[i]? = some p) {S : Array Word} {F : Flow.Frame} {s : Store}
    (hF : Holds X.slots X.env F S) (hne : ¬ Exhausts (X.blocks g bound i F s)) :
    Ends X.run ⟨p, [], S⟩ s (match X.blocks g bound i F s with
      | .ok (v, _) s => .ok v s
      | .error h s => .error h s) := by
  induction bound generalizing i p S F s with
  | zero => exact absurd ⟨s, rfl⟩ hne
  | succ bound ih =>
    have hlt : i < g.length := by
      rw [← h.length]
      exact (List.getElem?_eq_some_iff.1 hp).1
    have hb := List.getElem?_eq_getElem hlt
    obtain ⟨q, hcode⟩ := h.code i _ p hb hp
    have hlead := hcode X hX S F s hF
    rw [Flow.Scene.blocks_succ, hb] at hne ⊢
    cases hr : X.statements g[i].statements F s with
    | error e s' =>
      simp only [hr] at hlead ⊢
      exact hlead.ends
    | ok r s' =>
      obtain ⟨exit, F'⟩ := r
      simp only [hr] at hlead hne ⊢
      cases exit with
      | next => exact absurd hr (Flow.Scene.statements_ne_next (hclosed _ (List.getElem_mem hlt)))
      | ret v => exact hlead.ends
      | jump l =>
        obtain ⟨t, S', hl, hF', hjump⟩ := hlead
        obtain ⟨j, hj, hstart⟩ := h.blockOf? hbinds hl
        simp only [hj] at hne ⊢
        exact hjump.advances.reaches.ends (ih hstart hF' hne)

/-- A graph that is cut off has code whose run is cut off. -/
theorem Laid.exhausts (h : Laid g starts z u) (hbinds : z.Binds (g.flatMap Block.labels))
    (hclosed : ∀ b ∈ g, b.Closed) (hX : X.On z u) (bound : Nat) {i p : Nat}
    (hp : starts[i]? = some p) {S : Array Word} {F : Flow.Frame} {s : Store}
    (hF : Holds X.slots X.env F S) (hx : Exhausts (X.blocks g bound i F s)) :
    Exhausts (X.run bound ⟨p, [], S⟩ s) := by
  induction bound using Nat.strongRecOn generalizing i p S F s with
  | ind bound ih =>
  cases bound with
  | zero => exact X.run_zero _ _
  | succ bound =>
    have hlt : i < g.length := by
      rw [← h.length]
      exact (List.getElem?_eq_some_iff.1 hp).1
    have hb := List.getElem?_eq_getElem hlt
    obtain ⟨q, hcode⟩ := h.code i _ p hb hp
    have hlead := hcode X hX S F s hF
    rw [Flow.Scene.blocks_succ, hb] at hx
    cases hr : X.statements g[i].statements F s with
    | error e s' =>
      simp only [hr] at hlead hx
      obtain ⟨_, ⟨⟩⟩ := hx
      exact hlead.ends.exhausts ⟨_, rfl⟩ _
    | ok r s' =>
      obtain ⟨exit, F'⟩ := r
      simp only [hr] at hlead hx
      cases exit with
      | next => exact absurd hr (Flow.Scene.statements_ne_next (hclosed _ (List.getElem_mem hlt)))
      | ret v =>
        obtain ⟨_, hx⟩ := hx
        cases hx
      | jump l =>
        obtain ⟨t, S', hl, hF', hjump⟩ := hlead
        obtain ⟨k, hk, hlow⟩ := hjump.advances
        obtain ⟨j, hj, hstart⟩ := h.blockOf? hbinds hl
        simp only [hj] at hx
        by_cases hlt' : bound + 1 < k + 1
        · exact hlow _ hlt'
        · -- the run has taken a step at least, so that the bound has become smaller
          obtain ⟨n, hn⟩ := Nat.exists_eq_add_of_le' (Nat.le_of_not_lt hlt')
          rw [hn, hk]
          exact ih n (by omega) hstart hF' (Flow.Scene.exhausts_blocks_of_le (by omega) hx)

end

end CallByNeed
