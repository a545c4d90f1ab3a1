import CallByNeed.Proofs.Code.Primitive

/-!
# What entering tables leaves

The rules of `Emits` for the pieces that look up or extend a table: constants, slots, and the units
of nested bodies. Each says what the finished unit has at the index that was handed out.
-/

namespace CallByNeed

open CallByNeed.Flow (Term Thunk Procedure NodeId CallSite)

/-! ## Constants -/

namespace Pool

variable {p q : Pool} {i : Nat}

/-- Where a constant that is entered stands, and what that leaves alone. -/
structure Enters (p : Pool) (i : Nat) (c : Constant) (q : Pool) : Prop where
  sound : q.Sound
  entry : q.entries[i]? = some c
  entries : ∀ (k : Nat) (d : Constant), p.entries[k]? = some d → q.entries[k]? = some d

/-- An entry has an index that fits two bytes. -/
lemma Sound.index_lt (h : p.Sound) {c : Constant} (hi : p.entries[i]? = some c) :
    i < maxConstants := by
  have hlt : i < p.entries.size := by
    by_contra hge
    rw [Array.getElem?_eq_none (Nat.le_of_not_lt hge)] at hi
    cases hi
  exact Nat.lt_of_lt_of_le hlt h.size

/-- The entries before stay where they are when one is added. -/
lemma entry_push {c d : Constant} (hi : p.entries[i]? = some d) :
    (p.entries.push c)[i]? = some d := by
  rw [Array.getElem?_push]
  split
  · rename_i heq
    rw [heq, Array.getElem?_size] at hi
    cases hi
  · exact hi

/-- Entering a constant succeeds while there is room. -/
lemma push_eq_ok {c : Constant} (h : push c p = .ok i q) :
    p.entries.size < maxConstants ∧ i = p.entries.size ∧
      q = { p with entries := p.entries.push c } := by
  unfold push at h
  split at h
  · rename_i hlt
    cases h
    exact ⟨hlt, rfl, rfl⟩
  · cases h

/-- A constant that is added comes last. -/
lemma Sound.push (hp : p.Sound) {c : Constant} (h : Pool.push c p = .ok i q) :
    p.Enters i c q ∧ q.calls = p.calls := by
  obtain ⟨hlt, rfl, rfl⟩ := push_eq_ok h
  refine ⟨⟨⟨?_, fun s i hs => entry_push (hp.names s i hs),
    fun s i hs => entry_push (hp.primitives s i hs), fun id i hc => ?_⟩, by simp,
    fun k d hk => entry_push hk⟩, rfl⟩
  · rw [Array.size_push]
    exact hlt
  · obtain ⟨c, hc⟩ := hp.calls id i hc
    exact ⟨c, entry_push hc⟩

/-- One entering after the other. -/
lemma bind_apply {α β : Type} (c : Entering α) (f : α → Entering β) (p : Pool) :
    (c >>= f) p = match c p with
      | .ok x p' => f x p'
      | .error e p' => .error e p' := by
  show EStateM.bind c f p = _
  unfold EStateM.bind
  cases c p <;> rfl

/-- Running what enters a name. -/
lemma name_apply (s : Symbol) (p : Pool) :
    Pool.name s p = (match p.names[s.name]? with
      | some i => (return i : Entering Nat)
      | none => do
        let i ← Pool.push (.name s)
        modify fun p : Pool => { p with names := p.names.insert s.name i }
        return i) p := rfl

/-- Where a name is. -/
lemma Sound.name (hp : p.Sound) {s : Symbol} (h : Pool.name s p = .ok i q) :
    p.Enters i (.name s) q ∧ q.calls = p.calls := by
  rw [name_apply] at h
  cases hs : p.names[s.name]? with
  | some k =>
    rw [hs] at h
    cases h
    exact ⟨⟨hp, hp.names _ _ hs, fun _ _ hk => hk⟩, rfl⟩
  | none =>
    rw [hs] at h
    simp only [bind_apply] at h
    cases hpush : Pool.push (.name s) p with
    | error e p' =>
      rw [hpush] at h
      cases h
    | ok k p' =>
      rw [hpush] at h
      obtain ⟨henters, hcalls⟩ := hp.push hpush
      cases h
      refine ⟨⟨⟨henters.sound.size, fun t i ht => ?_, henters.sound.primitives,
        henters.sound.calls⟩, henters.entry, henters.entries⟩, hcalls⟩
      rw [Std.TreeMap.getElem?_insert] at ht
      split at ht
      · rename_i heq
        have heq : s.name = t := by simpa using heq
        cases ht
        rw [← heq]
        exact henters.entry
      · exact henters.sound.names t i ht

/-- Running what enters a builtin. -/
lemma primitive_apply (s : Symbol) (p : Pool) :
    Pool.primitive s p = (match p.primitives[s.name]? with
      | some i => (return i : Entering Nat)
      | none => do
        let i ← Pool.push (.primitive s)
        modify fun p : Pool => { p with primitives := p.primitives.insert s.name i }
        return i) p := rfl

/-- Where a builtin is. -/
lemma Sound.primitive (hp : p.Sound) {s : Symbol} (h : Pool.primitive s p = .ok i q) :
    p.Enters i (.primitive s) q ∧ q.calls = p.calls := by
  rw [primitive_apply] at h
  cases hs : p.primitives[s.name]? with
  | some k =>
    rw [hs] at h
    cases h
    exact ⟨⟨hp, hp.primitives _ _ hs, fun _ _ hk => hk⟩, rfl⟩
  | none =>
    rw [hs] at h
    simp only [bind_apply] at h
    cases hpush : Pool.push (.primitive s) p with
    | error e p' =>
      rw [hpush] at h
      cases h
    | ok k p' =>
      rw [hpush] at h
      obtain ⟨henters, hcalls⟩ := hp.push hpush
      cases h
      refine ⟨⟨⟨henters.sound.size, henters.sound.names, fun t i ht => ?_,
        henters.sound.calls⟩, henters.entry, henters.entries⟩, hcalls⟩
      rw [Std.TreeMap.getElem?_insert] at ht
      split at ht
      · rename_i heq
        have heq : s.name = t := by simpa using heq
        cases ht
        rw [← heq]
        exact henters.entry
      · exact henters.sound.primitives t i ht

/-- Running what enters a call. -/
lemma call_apply (c : CallSite) (p : Pool) :
    Pool.call c p = (match p.calls[c.id]? with
      | some i => (return i : Entering Nat)
      | none => do
        let i ← Pool.push (.call c.call)
        modify fun p : Pool => { p with calls := p.calls.insert c.id i }
        return i) p := rfl

/-- Where a call is: at the index of its site, or at a new one. -/
lemma Sound.call (hp : p.Sound) {c : CallSite} (h : Pool.call c p = .ok i q) :
    (q = p ∧ p.calls[c.id]? = some i) ∨
      (p.calls[c.id]? = none ∧ p.Enters i (.call c.call) q ∧
        q.calls = p.calls.insert c.id i) := by
  rw [call_apply] at h
  cases hs : p.calls[c.id]? with
  | some k =>
    rw [hs] at h
    cases h
    exact .inl ⟨rfl, rfl⟩
  | none =>
    rw [hs] at h
    simp only [bind_apply] at h
    cases hpush : Pool.push (.call c.call) p with
    | error e p' =>
      rw [hpush] at h
      cases h
    | ok k p' =>
      rw [hpush] at h
      obtain ⟨henters, hcalls⟩ := hp.push hpush
      cases h
      refine .inr ⟨rfl, ⟨⟨henters.sound.size, henters.sound.names, henters.sound.primitives,
        fun id i hid => ?_⟩, henters.entry, henters.entries⟩, by
          show p'.calls.insert c.id i = _
          rw [hcalls]⟩
      rw [Std.TreeMap.getElem?_insert] at hid
      split at hid
      · cases hid
        exact ⟨c.call, henters.entry⟩
      · exact henters.sound.calls id i hid

end Pool

namespace Assembly

variable {nested : Nested} {a : Assembly}

/-- Running a step on the pool. -/
lemma onPool_apply {α : Type} (step : Entering α) (a : Assembly) :
    Assemble.onPool step a = match step a.pool with
      | .ok x p => .ok x { a with pool := p }
      | .error e p => .error e { a with pool := p } := rfl

/-- A step on the pool succeeds as it does on the pool itself. -/
lemma onPool_eq_ok {α : Type} {step : Entering α} {x : α} {a' : Assembly}
    (h : Assemble.onPool step a = .ok x a') :
    ∃ p, step a.pool = .ok x p ∧ a' = { a with pool := p } := by
  rw [onPool_apply] at h
  cases hs : step a.pool with
  | ok y p =>
    rw [hs] at h
    cases h
    exact ⟨p, rfl, rfl⟩
  | error e p =>
    rw [hs] at h
    cases h

/-- Running a step on the slots. -/
lemma onSlots_apply {α : Type} (step : Allotting α) (a : Assembly) :
    Assemble.onSlots step a = match step a.slots with
      | .ok x s => .ok x { a with slots := s }
      | .error e s => .error e { a with slots := s } := rfl

/-- A step on the slots succeeds as it does on the slots themselves. -/
lemma onSlots_eq_ok {α : Type} {step : Allotting α} {x : α} {a' : Assembly}
    (h : Assemble.onSlots step a = .ok x a') :
    ∃ s, step a.slots = .ok x s ∧ a' = { a with slots := s } := by
  rw [onSlots_apply] at h
  cases hs : step a.slots with
  | ok y s =>
    rw [hs] at h
    cases h
    exact ⟨s, rfl, rfl⟩
  | error e s =>
    rw [hs] at h
    cases h

/-- Entering what is not a call. -/
lemma grows_enter {i : Nat} {c : Constant} {q : Pool} (ha : a.Sound)
    (h : a.pool.Enters i c q ∧ q.calls = a.pool.calls) :
    a.Grows nested [] { a with pool := q } := by
  refine grows_pool ha h.1.sound h.1.entries (fun id i hid => by rw [h.2]; exact hid)
    fun ds hds => ⟨hds.thunks, hds.closures, fun id => ?_⟩
  show (q.calls[id]?).bind (fun i => q.entries[i]?) = _
  rw [h.2, Notes.addAll_nil, ← hds.sites id]
  cases hid : a.pool.calls[id]? with
  | none => rfl
  | some k =>
    obtain ⟨d, hd⟩ := ha.pool.calls id k hid
    rw [Option.bind_some, Option.bind_some, hd, h.1.entries k _ hd]

/-- The constants of the unit are those of the assembly. -/
lemma Links.constant {z b : Assembly} {u : CodeUnit} (hz : z.Links u) (hb : b.Extends z) {i : Nat}
    {c : Constant} (h : b.pool.entries[i]? = some c) :
    i < maxConstants ∧ u.constants[i]? = some c := by
  have hi := hb.entries i c h
  exact ⟨hz.sound.pool.index_lt hi, by rw [hz.constants]; exact hi⟩

end Assembly

namespace Emits

variable {nested : Nested} {anon : List Mark}

/-- The index has this constant, and nothing is emitted. -/
def HasConstant (c : Constant) (i p q : Nat) (u : CodeUnit) : Prop :=
  q = p ∧ i < maxConstants ∧ u.constants[i]? = some c

/-- Entering what is not a call. -/
lemma enter {step : Entering Nat} {c : Constant}
    (h : ∀ p i q, p.Sound → step p = .ok i q → p.Enters i c q ∧ q.calls = p.calls) :
    Emits nested anon [] (Assemble.onPool step) (fun i p q _ u => HasConstant c i p q u) := by
  intro a i a' hc ha _
  obtain ⟨q, hq, rfl⟩ := Assembly.onPool_eq_ok hc
  have henters := h _ _ _ ha.pool hq
  exact ⟨Assembly.grows_enter ha henters,
    fun z u hz he => ⟨rfl, hz.constant he henters.1.entry⟩⟩

/-- The index of a name. -/
lemma nameIndex (s : Symbol) :
    Emits nested anon [] (Assemble.nameIndex s) (fun i p q _ u => HasConstant (.name s) i p q u) :=
  enter fun _ _ _ hp h => hp.name h

/-- The index of a builtin. -/
lemma primitiveIndex (s : Symbol) :
    Emits nested anon [] (Assemble.primitiveIndex s)
      (fun i p q _ u => HasConstant (.primitive s) i p q u) :=
  enter fun _ _ _ hp h => hp.primitive h

/-- The index of a literal. -/
lemma literalIndex (e : Expr) :
    Emits nested anon [] (Assemble.onPool (Pool.literal e))
      (fun i p q _ u => HasConstant (.literal e) i p q u) :=
  enter fun _ _ _ hp h => hp.push h

/-- The index of a call. -/
lemma callIndex (c : CallSite) :
    Emits nested anon [.site c] (Assemble.callIndex c) (fun i p q z u =>
      q = p ∧ i < maxConstants ∧ z.pool.calls[c.id]? = some i ∧
        ∃ call, u.constants[i]? = some (.call call)) := by
  intro a i a' hc ha _
  obtain ⟨q, hq, rfl⟩ := Assembly.onPool_eq_ok hc
  rcases ha.pool.call hq with ⟨rfl, hid⟩ | ⟨hnone, henters, hcalls⟩
  · obtain ⟨d, hd⟩ := ha.pool.calls _ _ hid
    refine ⟨Assembly.grows_pool ha ha.pool (fun _ _ h => h) (fun _ _ h => h) fun ds hds => ?_,
      fun z u hz he => ⟨rfl, (hz.constant he hd).1, he.calls _ _ hid, d, (hz.constant he hd).2⟩⟩
    have hmet : ds.sites.any (fun e => e.id = c.id) = true := by
      have hsome := hds.sites c.id
      rw [hid, Option.bind_some, hd] at hsome
      cases hfind : ds.sites.find? fun e => e.id = c.id with
      | none => simp [hfind] at hsome
      | some e =>
        have hid := List.find?_some hfind
        exact List.any_eq_true.2 ⟨e, List.mem_of_find?_eq_some hfind, hid⟩
    rw [Notes.addAll_cons, Notes.addAll_nil, Notes.add, if_pos hmet]
    exact ⟨hds.thunks, hds.closures, hds.sites⟩
  · have hnew : q.calls[c.id]? = some i := by rw [hcalls]; simp
    refine ⟨Assembly.grows_pool ha henters.sound henters.entries (fun id k hk => ?_) fun ds hds => ?_,
      fun z u hz he => ⟨rfl, (hz.constant he henters.entry).1, he.calls _ _ hnew, c.call,
        (hz.constant he henters.entry).2⟩⟩
    · rw [hcalls, Std.TreeMap.getElem?_insert]
      split
      · rename_i heq
        have heq : c.id = id := by simpa using heq
        rw [← heq, hnone] at hk
        cases hk
      · exact hk
    · have hunmet : ds.sites.find? (fun e => e.id = c.id) = none := by
        have hn := hds.sites c.id
        rw [hnone, Option.bind_none] at hn
        cases hfind : ds.sites.find? fun e => e.id = c.id with
        | none => rfl
        | some e => simp [hfind] at hn
      have hany : ¬ ds.sites.any (fun e => e.id = c.id) = true := by
        rw [List.any_eq_true]
        rintro ⟨e, he, hid⟩
        have := List.find?_eq_none.1 hunmet e he
        exact this hid
      rw [Notes.addAll_cons, Notes.addAll_nil, Notes.add, if_neg hany]
      refine ⟨hds.thunks, hds.closures, fun id => ?_⟩
      show (q.calls[id]?).bind (fun i => q.entries[i]?) = _
      rw [List.find?_append]
      by_cases hid : c.id = id
      · subst hid
        rw [hnew, Option.bind_some, henters.entry, hunmet]
        simp
      · have hold : q.calls[id]? = a.pool.calls[id]? := by
          rw [hcalls, Std.TreeMap.getElem?_insert, if_neg (by simpa using hid)]
        have hrest : (ds.sites.find? (fun e => e.id = id)).or
            (List.find? (fun e => e.id = id) [c]) = ds.sites.find? fun e => e.id = id := by
          simp [hid]
        rw [hold, hrest, ← hds.sites id]
        cases hk : a.pool.calls[id]? with
        | none => rfl
        | some k =>
          obtain ⟨d, hd⟩ := ha.pool.calls id k hk
          rw [Option.bind_some, Option.bind_some, hd, henters.entries k _ hd]

end Emits

/-! ## Slots -/

namespace Slots

variable {s t : Slots} {key : Flow.SlotKey} {kind : SlotKind} {slot : Slot}

/-- The slot of a key stands in the list. -/
lemma mem_of_lookup? (h : s.lookup? key = some slot) :
    ∃ i : Nat, s.taken[i]? = some (key, slot) := by
  have hmem : (key, slot) ∈ s.taken := by
    unfold Slots.lookup? at h
    generalize s.taken = entries at h
    induction entries with
    | nil => cases h
    | cons entry rest ih =>
      rw [List.lookup_cons] at h
      split at h
      · rename_i heq
        cases h
        have heq : key = entry.1 := by simpa using heq
        rw [heq]
        exact List.mem_cons_self
      · exact List.mem_cons_of_mem _ (ih h)
  exact List.getElem?_of_mem hmem

/-- A slot that was handed out lies behind the reserved ones and within the frame. -/
lemma Sound.range (hs : s.Sound) (h : s.lookup? key = some slot) :
    firstLocalSlot ≤ slot.index ∧ slot.index < s.frameSize := by
  obtain ⟨i, hi⟩ := mem_of_lookup? h
  have hlt : i < s.taken.length := (List.getElem?_eq_some_iff.1 hi).1
  have hidx := hs.index i key slot hi
  have hfree := hs.firstFree
  rw [frameSize, count]
  omega

/-- Different keys have different slots. -/
lemma Sound.inj (hs : s.Sound) {key' : Flow.SlotKey} {slot' : Slot}
    (h : s.lookup? key = some slot) (h' : s.lookup? key' = some slot')
    (heq : slot.index = slot'.index) : key = key' ∧ slot = slot' := by
  obtain ⟨i, hi⟩ := mem_of_lookup? h
  obtain ⟨j, hj⟩ := mem_of_lookup? h'
  have hij : i = j := by
    have := hs.index i key slot hi
    have := hs.index j key' slot' hj
    omega
  rw [hij, hj] at hi
  cases hi
  exact ⟨rfl, rfl⟩

/-- Running what finds or hands out a slot. -/
lemma slotFor_apply (key : Flow.SlotKey) (kind : SlotKind) (s : Slots) :
    Slots.slotFor key kind s = (match s.lookup? key with
      | some slot => (do
        if slot.kind = SlotKind.int ∧ kind = SlotKind.value then
          throw (CompileError.defect (.slotReboxed slot.index s.unit))
        return slot : Allotting Slot)
      | none => Slots.allot key kind) s := rfl

/-- Handing out a slot for an assignment: the slot is that of the key, no earlier one moves, and a
slot for native integers is not given to a value. -/
lemma Sound.slotFor (hs : s.Sound) (h : Slots.slotFor key kind s = .ok slot t) :
    t.Sound ∧ t.lookup? key = some slot ∧ (slot.kind = .int → kind = .int) ∧
      ∀ key' slot', s.lookup? key' = some slot' → t.lookup? key' = some slot' := by
  rw [slotFor_apply] at h
  cases hl : s.lookup? key with
  | some old =>
    rw [hl] at h
    by_cases hk : old.kind = .int ∧ kind = .value
    · simp only [if_pos hk] at h
      cases h
    · simp only [if_neg hk] at h
      cases h
      refine ⟨hs, hl, fun hint => ?_, fun _ _ h => h⟩
      cases kind with
      | int => rfl
      | value => exact absurd ⟨hint, rfl⟩ hk
  | none =>
    rw [hl] at h
    simp only [Slots.allot] at h
    split at h
    · rename_i hlt
      cases h
      have hold : ∀ key' slot', s.lookup? key' = some slot' →
          (s.taken ++ [(key, Slot.mk s.frameSize (if s.boxed.contains key then .value else kind))]).lookup
            key' = some slot' := fun key' slot' h' => by
        rw [List.lookup_append]
        show (s.lookup? key').or _ = _
        rw [h', Option.some_or]
      refine ⟨⟨hs.firstFree, fun i key' slot' hi => ?_, ?_⟩, ?_, fun hint => ?_, hold⟩
      · rw [List.getElem?_append] at hi
        split at hi
        · exact hs.index i key' slot' hi
        · rename_i hge
          have hi0 : i - s.taken.length = 0 := by
            by_contra hne
            rw [List.getElem?_eq_none (by simp; omega)] at hi
            cases hi
          rw [hi0] at hi
          cases hi
          show s.frameSize = s.firstFree + i
          rw [frameSize, count]
          omega
      · show s.firstFree + (s.taken ++ [_]).length ≤ maxSlots
        rw [List.length_append]
        rw [frameSize, count] at hlt
        simp only [List.length_cons, List.length_nil]
        omega
      · show List.lookup key (s.taken ++ [_]) = _
        rw [List.lookup_append]
        show (s.lookup? key).or _ = _
        rw [hl, Option.none_or, List.lookup_cons_self]
      · show kind = .int
        have hint : (if s.boxed.contains key then SlotKind.value else kind) = .int := hint
        split at hint
        · cases hint
        · exact hint
    · cases h

end Slots

namespace Emits

variable {nested : Nested} {anon : List Mark}

/-- The slot for an assignment. -/
lemma slotFor (key : Flow.SlotKey) (kind : SlotKind) :
    Emits nested anon [] (Assemble.slotFor key kind) (fun slot p q z _ =>
      q = p ∧ z.slots.lookup? key = some slot ∧ (slot.kind = .int → kind = .int)) := by
  intro a slot a' hc ha _
  obtain ⟨s, hs, rfl⟩ := Assembly.onSlots_eq_ok hc
  obtain ⟨hsound, hnew, hkind, hold⟩ := ha.slots.slotFor hs
  exact ⟨Assembly.grows_slots ha hsound hold,
    fun z u _ he => ⟨rfl, he.slots _ _ hnew, hkind⟩⟩

end Emits

end CallByNeed
