import CallByNeed.Proofs.Code.Emission

/-!
# What the primitive pieces of emitting leave

One rule of `Emits` for each primitive piece: emitting an instruction, a jump, binding a target,
entering a constant, handing out a slot.
-/

namespace CallByNeed

open CallByNeed.Flow (Term Thunk Procedure NodeId CallSite)

/-! ## Instructions -/

/-- Appending an instruction appends its bytes. -/
lemma Bytes.toList_append (code : Bytes) (i : Instruction) :
    (code.append i).toList = code.toList ++ i.encode := by
  have hpush : ∀ (bs : List UInt8) (as : Bytes),
      (bs.foldl Array.push as).toList = as.toList ++ bs := by
    intro bs
    induction bs with
    | nil => simp
    | cons b bs ih =>
      intro as
      rw [List.foldl_cons, ih]
      simp
  exact hpush i.encode code

namespace Assembly

variable {a : Assembly}

/-- Targets that lie between sketches still do when more follow. -/
lemma Draws.marks_append {ks : List Sketch} (h : a.Draws ks) (more : List Sketch) (m : Mark)
    (t : Nat) (hm : a.jumps.position? m = some t) :
    ∃ before after, ks ++ more = before ++ after ∧ t = (Sketch.bytes before).length := by
  obtain ⟨before, after, rfl, rfl⟩ := h.marks m t hm
  exact ⟨before, after ++ more, by simp, rfl⟩

/-- Emitting an instruction adds its sketch. -/
lemma Draws.emit {ks : List Sketch} {op : Opcode} {operands : List Nat}
    (hshape : operands.length = op.widths.length) (hop : op.isJump = false) (h : a.Draws ks) :
    ({ a with emitter := a.emitter.append ⟨op, operands⟩ } : Assembly).Draws
      (ks ++ [.plain ⟨op, operands⟩]) where
  code := by
    show (a.emitter.code.append _).toList = _
    rw [Bytes.toList_append, h.code]
    simp [Sketch.bytes, Sketch.raw]
  pending := by
    rw [Sketch.pendingFrom_append 0 h.sound]
    simpa [Sketch.pendingFrom] using h.pending
  sound k hk := by
    rcases List.mem_append.1 hk with hk | hk
    · exact h.sound k hk
    · cases List.mem_singleton.1 hk
      exact ⟨hshape, hop⟩
  marks := h.marks_append _

/-- Emitting a jump adds its sketch. -/
lemma Draws.jump {ks : List Sketch} {op : Opcode} {m : Mark} (hop : op.isJump = true)
    (h : a.Draws ks) :
    ({ a with
        emitter := a.emitter.append ⟨op, [unpatchedJump]⟩
        jumps := a.jumps.record a.position m } : Assembly).Draws (ks ++ [.jump op m]) where
  code := by
    show (a.emitter.code.append _).toList = _
    rw [Bytes.toList_append, h.code]
    simp [Sketch.bytes, Sketch.raw]
  pending := by
    rw [Sketch.pendingFrom_append 0 h.sound, ← h.position]
    show (a.jumps.pending.push (a.position, m)).toList = _
    rw [Array.toList_push, h.pending]
    simp [Sketch.pendingFrom]
  sound k hk := by
    rcases List.mem_append.1 hk with hk | hk
    · exact h.sound k hk
    · cases List.mem_singleton.1 hk
      exact hop
  marks := h.marks_append _

/-- A sketch takes the length of its instruction. -/
lemma Draws.position_add {b : Assembly} {ks : List Sketch} {k : Sketch} (h : a.Draws ks)
    (h' : b.Draws (ks ++ [k])) : b.position = a.position + k.raw.op.size := by
  have hk : k.Sound := h'.sound k (by simp)
  rw [h'.position, h.position, Sketch.bytes, List.flatMap_append, List.length_append,
    ← hk.shaped_raw.length_encode]
  simp [Sketch.bytes]

/-- What stands in the finished unit where a sketch was added. -/
lemma Links.holds {z b : Assembly} {u : CodeUnit} (hz : z.Links u) (hb : b.Extends z)
    {ks : List Sketch} {k : Sketch} (hd : b.Draws (ks ++ [k]))
    (hfit : (k.linked z.jumps).Fits) :
    u.code.Holds (Sketch.bytes ks).length (k.linked z.jumps) := by
  obtain ⟨more, hmore⟩ := hb.draws _ hd
  have hks : ∀ k ∈ ks, k.Sound := fun k hk => hmore.sound k (by simp [hk])
  rw [← Sketch.length_linkedBytes z.jumps hks]
  refine Bytes.holds_of_append (Sketch.linkedBytes z.jumps more) hfit ?_
  rw [hz.code _ hmore]
  simp [Sketch.linkedBytes]

end Assembly

/-! ## Growing the table of targets -/

namespace Jumps

variable {j j' : Jumps} {m : Mark} {p : Nat}

/-- A new target has no position, and the others keep theirs. -/
lemma position?_push (j : Jumps) (name : String) (m : Mark) :
    (j.push name).2.position? m = j.position? m := by
  show (j.targets.push _)[m.index]?.bind _ = j.targets[m.index]?.bind _
  rw [Array.getElem?_push]
  split
  · rename_i heq
    rw [heq, Array.getElem?_size]
    rfl
  · rfl

/-- Binding a target that has no position yet. -/
lemma bind_eq_ok (h : j.bind m p = .ok j') :
    ∃ t, j.targets[m.index]? = some t ∧ t.position = none ∧
      j' = { j with targets := j.targets.setIfInBounds m.index { t with position := some p } } := by
  unfold Jumps.bind at h
  split at h
  · cases h
  · rename_i t ht
    split at h
    · cases h
    · rename_i hnone
      cases h
      exact ⟨t, ht, hnone, rfl⟩

lemma bind_labels (h : j.bind m p = .ok j') : j'.labels = j.labels := by
  obtain ⟨t, -, -, rfl⟩ := bind_eq_ok h
  rfl

lemma bind_pending (h : j.bind m p = .ok j') : j'.pending = j.pending := by
  obtain ⟨t, -, -, rfl⟩ := bind_eq_ok h
  rfl

lemma bind_size (h : j.bind m p = .ok j') : j'.targets.size = j.targets.size := by
  obtain ⟨t, -, -, rfl⟩ := bind_eq_ok h
  exact Array.size_setIfInBounds

/-- A bound target has no position before. -/
lemma position?_of_bind (h : j.bind m p = .ok j') : j.position? m = none := by
  obtain ⟨t, ht, hnone, -⟩ := bind_eq_ok h
  rw [position?, ht, Option.bind_some, hnone]

/-- Binding a target changes its position only. -/
lemma position?_bind (h : j.bind m p = .ok j') (m' : Mark) :
    j'.position? m' = if m = m' then some p else j.position? m' := by
  obtain ⟨t, ht, -, rfl⟩ := bind_eq_ok h
  have hlt : m.index < j.targets.size := by
    by_contra hge
    rw [Array.getElem?_eq_none (Nat.le_of_not_lt hge)] at ht
    cases ht
  show (j.targets.setIfInBounds m.index _)[m'.index]?.bind _ = _
  rw [Array.getElem?_setIfInBounds]
  by_cases heq : m = m'
  · subst heq
    simp [hlt]
  · have hne : m.index ≠ m'.index := fun h => heq (congrArg Mark.mk h)
    rw [if_neg hne, if_neg heq]
    rfl

end Jumps

namespace Assembly

variable {nested : Nested} {a : Assembly}

/-- Nothing changes. -/
lemma Grows.refl (ha : a.Sound) : a.Grows nested [] a :=
  ⟨.refl a, ha, fun _ h => h, fun _ h => h, fun _ h => h⟩

/-- Only the table of targets changes, and no position is lost. -/
lemma extends_jumps {j : Jumps}
    (hd : ∀ ks, a.Draws ks → ({ a with jumps := j } : Assembly).Draws ks)
    (marks : ∀ m t, a.jumps.position? m = some t → j.position? m = some t)
    (labels : ∀ id i : Nat, a.jumps.labels[id]? = some i → j.labels[id]? = some i) :
    a.Extends { a with jumps := j } where
  unit := rfl
  options := rfl
  draws ks hks := ⟨[], by rw [List.append_nil]; exact hd ks hks⟩
  marks := marks
  labels := labels
  entries _ _ h := h
  calls _ _ h := h
  slots _ _ h := h
  thunks _ _ h := h
  thunkUnits _ _ h := h
  closures _ _ h := h
  closureUnits _ _ h := h

/-- The sketches stay when no position is added. -/
lemma Draws.jumps {j : Jumps} {ks : List Sketch} (h : a.Draws ks)
    (hpending : j.pending = a.jumps.pending) (hpos : ∀ m, j.position? m = a.jumps.position? m) :
    ({ a with jumps := j } : Assembly).Draws ks where
  code := h.code
  pending := by rw [← h.pending, ← hpending]
  sound := h.sound
  marks m t hm := h.marks m t ((hpos m).symm.trans hm)

/-- A target without a label is added. -/
lemma grows_push (ha : a.Sound) (name : String) :
    a.Grows nested [] { a with jumps := (a.jumps.push name).2 } where
  toExtends := extends_jumps (fun ks h => h.jumps rfl (Jumps.position?_push _ _))
    (fun m t h => (Jumps.position?_push _ _ m).trans h) (fun _ _ h => h)
  sound := ⟨ha.draws.imp fun ks h => h.jumps rfl (Jumps.position?_push _ _), ha.pool, ha.slots,
    ha.thunks, ha.closures, fun id i h => by
      have := ha.jumps.range id i h
      simp only [Jumps.push, Array.size_push]
      omega, ha.jumps.inj⟩
  anonymous m h := ⟨by
    have := h.1
    simp only [Jumps.push, Array.size_push]
    omega, h.2⟩
  binds placed hp id i t h h' := hp id i t h ((Jumps.position?_push _ _ _).symm.trans h')
  notes _ h := ⟨h.thunks, h.closures, h.sites⟩

/-- A target of a new label is added. -/
lemma grows_label (ha : a.Sound) (l : Flow.Label) (hl : a.jumps.labels[l.id]? = none) :
    a.Grows nested [] { a with jumps := { (a.jumps.push l.text).2 with
      labels := a.jumps.labels.insert l.id a.jumps.targets.size } } := by
  have hins : ∀ id i : Nat, (a.jumps.labels.insert l.id a.jumps.targets.size)[id]? = some i →
      (l.id = id ∧ i = a.jumps.targets.size) ∨ a.jumps.labels[id]? = some i := by
    intro id i h
    rw [Std.TreeMap.getElem?_insert] at h
    split at h
    · rename_i heq
      exact .inl ⟨by simpa using heq, by simpa using h.symm⟩
    · exact .inr h
  have hsize : (a.jumps.push l.text).2.targets.size = a.jumps.targets.size + 1 := by
    simp [Jumps.push]
  have hpos : ∀ m, Jumps.position? { (a.jumps.push l.text).2 with
      labels := a.jumps.labels.insert l.id a.jumps.targets.size } m = a.jumps.position? m :=
    Jumps.position?_push _ _
  refine ⟨extends_jumps (fun ks h => h.jumps rfl hpos) (fun m t h => (hpos m).trans h)
    (fun id i h => ?_), ?_, ?_, ?_, fun _ h => ⟨h.thunks, h.closures, h.sites⟩⟩
  · rw [Std.TreeMap.getElem?_insert]
    split
    · rename_i heq
      have heq : l.id = id := by simpa using heq
      rw [← heq, hl] at h
      cases h
    · exact h
  · refine ⟨ha.draws.imp fun ks h => h.jumps rfl hpos, ha.pool, ha.slots, ha.thunks,
      ha.closures, fun id i h => ?_, fun id id' i h h' => ?_⟩
    · rw [hsize]
      rcases hins id i h with ⟨-, rfl⟩ | h
      · exact Nat.lt_succ_self _
      · exact Nat.lt_succ_of_lt (ha.jumps.range id i h)
    · rcases hins id i h with ⟨rfl, rfl⟩ | h
      · rcases hins id' _ h' with ⟨rfl, -⟩ | h'
        · rfl
        · exact absurd (ha.jumps.range _ _ h') (Nat.lt_irrefl _)
      · rcases hins id' i h' with ⟨rfl, rfl⟩ | h'
        · exact absurd (ha.jumps.range _ _ h) (Nat.lt_irrefl _)
        · exact ha.jumps.inj id id' i h h'
  · intro m hm
    refine ⟨by rw [hsize]; exact Nat.lt_succ_of_lt hm.1, fun id h => ?_⟩
    rcases hins id _ h with ⟨-, heq⟩ | h
    · exact absurd hm.1 (by omega)
    · exact hm.2 id h
  · intro placed hp id i t h h'
    rw [hpos] at h'
    rcases hins id i h with ⟨-, rfl⟩ | h
    · rw [Jumps.position?, Array.getElem?_size] at h'
      cases h'
    · exact hp id i t h h'

/-- The offset that a target is bound to lies behind all sketches. -/
lemma Draws.bind {j : Jumps} {m : Mark} {ks : List Sketch} (h : a.Draws ks)
    (hj : a.jumps.bind m a.position = .ok j) : ({ a with jumps := j } : Assembly).Draws ks where
  code := h.code
  pending := by rw [← h.pending, ← Jumps.bind_pending hj]
  sound := h.sound
  marks m' t hm := by
    rw [Jumps.position?_bind hj] at hm
    split at hm
    · cases hm
      exact ⟨ks, [], by simp, h.position⟩
    · exact h.marks m' t hm

/-- Binding a target loses nothing. -/
lemma extends_bind {j : Jumps} {m : Mark} (hj : a.jumps.bind m a.position = .ok j) :
    a.Extends { a with jumps := j } := by
  refine extends_jumps (fun ks h => h.bind hj) (fun m' t h => ?_) (fun id i h => ?_)
  · rw [Jumps.position?_bind hj, if_neg]
    · exact h
    · rintro rfl
      rw [Jumps.position?_of_bind hj] at h
      cases h
  · rw [Jumps.bind_labels hj]
    exact h

/-- Binding a target keeps what holds of every assembly. -/
lemma Sound.bind {j : Jumps} {m : Mark} (ha : a.Sound)
    (hj : a.jumps.bind m a.position = .ok j) : ({ a with jumps := j } : Assembly).Sound where
  draws := ha.draws.imp fun ks h => h.bind hj
  pool := ha.pool
  slots := ha.slots
  thunks := ha.thunks
  closures := ha.closures
  jumps := ⟨by rw [Jumps.bind_labels hj, Jumps.bind_size hj]; exact ha.jumps.range,
    by rw [Jumps.bind_labels hj]; exact ha.jumps.inj⟩

/-- Binding succeeds only by binding. -/
lemma place_eq_ok {m : Mark} {a' : Assembly} {x : Unit} (h : Assemble.place m a = .ok x a') :
    ∃ j, a.jumps.bind m a.position = .ok j ∧ a' = { a with jumps := j } := by
  rw [Assemble.place, Assemble.get_bind_apply] at h
  cases hj : a.jumps.bind m a.emitter.position with
  | ok j =>
    rw [hj] at h
    cases h
    exact ⟨j, hj, rfl⟩
  | error e =>
    rw [hj] at h
    cases h

/-- The target of a label is looked up, or it is added. -/
lemma resolve_eq_ok {l : Flow.Label} {m : Mark} {a' : Assembly}
    (h : Assemble.resolve l a = .ok m a') :
    a'.position = a.position ∧ a'.jumps.labels[l.id]? = some m.index ∧
      (a' = a ∨ a.jumps.labels[l.id]? = none ∧ a' = { a with jumps := { (a.jumps.push l.text).2 with
        labels := a.jumps.labels.insert l.id a.jumps.targets.size } }) := by
  have hrun : Assemble.resolve l a
      = .ok (a.jumps.resolve l).1 { a with jumps := (a.jumps.resolve l).2 } := rfl
  rw [hrun] at h
  cases hl : a.jumps.labels[l.id]? with
  | some i =>
    have hres : a.jumps.resolve l = (⟨i⟩, a.jumps) := by rw [Jumps.resolve, hl]
    rw [hres] at h
    cases h
    exact ⟨rfl, hl, .inl rfl⟩
  | none =>
    have hres : a.jumps.resolve l = (⟨a.jumps.targets.size⟩, { (a.jumps.push l.text).2 with
        labels := a.jumps.labels.insert l.id a.jumps.targets.size }) := by
      rw [Jumps.resolve, hl]
      rfl
    rw [hres] at h
    cases h
    exact ⟨rfl, by simp, .inr ⟨rfl, rfl⟩⟩

end Assembly

namespace Emits

variable {nested : Nested} {anon : List Mark}

/-- An instruction. -/
lemma emit {op : Opcode} {operands : List Nat} (hshape : operands.length = op.widths.length)
    (hop : op.isJump = false) :
    Emits nested anon [] (Assemble.emit op operands) (fun _ p q _ u =>
      q = p + op.size ∧ (Instruction.Fits ⟨op, operands⟩ → u.code.Holds p ⟨op, operands⟩)) := by
  intro a x a' hc ha _
  obtain ⟨b, hb⟩ : ∃ b : Assembly, b = { a with emitter := a.emitter.append ⟨op, operands⟩ } :=
    ⟨_, rfl⟩
  obtain rfl : b = a' := by
    rw [hb]
    cases hc
    rfl
  have hd : ∀ ks, a.Draws ks → b.Draws (ks ++ [.plain ⟨op, operands⟩]) :=
    by
    rw [hb]
    exact fun ks h => h.emit hshape hop
  refine ⟨Assembly.grows_emit ha _ (by rw [hb]) (by rw [hb]) (by rw [hb]) hd, fun z u hz he => ?_⟩
  obtain ⟨ks, hks⟩ := ha.draws
  refine ⟨hks.position_add (hd ks hks), fun hfit => ?_⟩
  rw [hks.position]
  exact hz.holds he (hd ks hks) hfit

/-- A jump. -/
lemma jump (op : Opcode) (m : Mark) (hop : op.isJump = true) :
    Emits nested anon [] (Assemble.jump op m) (fun _ p q z u => q = p + op.size ∧
      ∃ target, z.jumps.position? m = some target ∧ u.code.Holds p ⟨op, [target]⟩) := by
  intro a x a' hc ha _
  obtain ⟨b, hb⟩ : ∃ b : Assembly, b = { a with
      emitter := a.emitter.append ⟨op, [unpatchedJump]⟩
      jumps := a.jumps.record a.position m } := ⟨_, rfl⟩
  obtain rfl : b = a' := by
    rw [hb]
    cases hc
    rfl
  have hd : ∀ ks, a.Draws ks → b.Draws (ks ++ [.jump op m]) := by
    rw [hb]
    exact fun ks h => h.jump hop
  refine ⟨Assembly.grows_emit ha _ (by rw [hb]) (by rw [hb]; rfl) (by rw [hb]; rfl) hd, fun z u hz he => ?_⟩
  obtain ⟨ks, hks⟩ := ha.draws
  refine ⟨hks.position_add (hd ks hks), ?_⟩
  obtain ⟨more, hmore⟩ := he.draws _ (hd ks hks)
  obtain ⟨target, htarget, hlt⟩ := hz.bound _ hmore op m (by simp)
  have hlinked : (Sketch.jump op m).linked z.jumps = ⟨op, [target]⟩ := by
    rw [Sketch.linked, htarget, Option.getD_some]
  have hholds := hz.holds he (hd ks hks) (by
    rw [hlinked, Instruction.Fits, Opcode.widths_of_isJump hop]
    exact .cons hlt .nil)
  rw [hlinked, ← hks.position] at hholds
  exact ⟨target, htarget, hholds⟩

/-! ## Targets -/

/-- A new target is anonymous in what follows. -/
lemma freshMark {β : Type} {vs : List Visit} {d : Mark → Assemble β}
    {S : β → Nat → Nat → Assembly → CodeUnit → Prop}
    (h : ∀ m, Emits nested (m :: anon) vs (d m) S) :
    Emits nested anon vs (Assemble.freshMark >>= d) S := by
  intro a y b hc ha hm
  let m : Mark := ⟨a.jumps.targets.size⟩
  let j : Jumps := (a.jumps.push s!"anon{a.jumps.targets.size}").2
  have hrun : (Assemble.freshMark >>= d) a = d m { a with jumps := j } := rfl
  have hg : a.Grows nested [] { a with jumps := j } := Assembly.grows_push ha _
  have hnew : ({ a with jumps := j } : Assembly).Anonymous m :=
    ⟨by simp [j, m, Jumps.push], fun id h => Nat.lt_irrefl _ (ha.jumps.range id _ h)⟩
  rw [hrun] at hc
  obtain ⟨hg', hs⟩ := h m _ y b hc hg.sound fun m' hmem => by
    rcases List.mem_cons.1 hmem with rfl | hmem
    · exact hnew
    · exact hg.anonymous m' (hm m' hmem)
  exact ⟨hg.trans hg', hs⟩

/-- Binding an anonymous target. -/
lemma place (m : Mark) (hmem : m ∈ anon) :
    Emits nested anon [] (Assemble.place m) (fun _ p q z _ =>
      q = p ∧ z.jumps.position? m = some p) := by
  intro a x a' hc ha hm
  obtain ⟨j, hj, rfl⟩ := Assembly.place_eq_ok hc
  have hg : a.Grows nested [] { a with jumps := j } := {
    toExtends := Assembly.extends_bind hj
    sound := ha.bind hj
    anonymous := fun m' h => by
      rw [Assembly.Anonymous, Jumps.bind_size hj, Jumps.bind_labels hj]
      exact h
    binds := fun placed hp id i t h h' => by
      rw [Jumps.bind_labels hj] at h
      rw [Jumps.position?_bind hj] at h'
      split at h'
      · rename_i heq
        cases heq
        exact absurd h ((hm _ hmem).2 id)
      · exact hp id i t h h'
    notes := fun _ h => ⟨h.thunks, h.closures, h.sites⟩ }
  refine ⟨hg, fun z u _ he => ⟨rfl, he.marks m _ ?_⟩⟩
  rw [Jumps.position?_bind hj, if_pos rfl]

/-- The target of a label. -/
lemma resolve (l : Flow.Label) :
    Emits nested anon [] (Assemble.resolve l) (fun m p q z _ =>
      q = p ∧ z.jumps.labels[l.id]? = some m.index) := by
  intro a m a' hc ha _
  obtain ⟨hposition, hlabel, rfl | ⟨hl, rfl⟩⟩ := Assembly.resolve_eq_ok hc
  · exact ⟨.refl ha, fun z u _ he => ⟨rfl, he.labels _ _ hlabel⟩⟩
  · exact ⟨Assembly.grows_label ha _ hl, fun z u _ he => ⟨rfl, he.labels _ _ hlabel⟩⟩

end Emits

end CallByNeed
