import CallByNeed.Code.OfTerm
import CallByNeed.Proofs.Code.Linking

/-!
# How an assembly grows

What holds of every assembly (`Assembly.Sound`), what stays once it is there (`Assembly.Extends`),
and which nested bodies and call sites have been met (`Assembly.Lists`). The code so far is described
by the sketches it was made of (`Assembly.Draws`), so that what was emitted can still be named when
all jumps are completed.
-/

namespace CallByNeed

open CallByNeed.Flow (Term Thunk Procedure NodeId CallSite)

/-! ## What has been met -/

/-- Something that gets an index of its own when code for it is emitted. -/
inductive Visit where
  | thunk (d : Thunk)
  | closure (node : NodeId) (p : Procedure Term)
  | site (c : CallSite)

/-- What has been met so far, first things first, each identity once. -/
structure Notes where
  thunks : List Thunk := []
  closures : List (NodeId × Procedure Term) := []
  sites : List CallSite := []

namespace Notes

/-- Notes one more thing, unless its identity is known. -/
def add (ds : Notes) : Visit → Notes
  | .thunk d =>
    if ds.thunks.any fun e => e.node = d.node then ds else { ds with thunks := ds.thunks ++ [d] }
  | .closure node p =>
    if ds.closures.any fun e => e.1 = node then ds
    else { ds with closures := ds.closures ++ [(node, p)] }
  | .site c =>
    if ds.sites.any fun e => e.id = c.id then ds else { ds with sites := ds.sites ++ [c] }

/-- Notes several things in order. -/
def addAll (ds : Notes) (vs : List Visit) : Notes := vs.foldl add ds

@[simp] lemma addAll_nil (ds : Notes) : ds.addAll [] = ds := rfl

lemma addAll_cons (ds : Notes) (v : Visit) (vs : List Visit) :
    ds.addAll (v :: vs) = (ds.add v).addAll vs := rfl

lemma addAll_append (ds : Notes) (vs ws : List Visit) :
    ds.addAll (vs ++ ws) = (ds.addAll vs).addAll ws := List.foldl_append ..

end Notes

/-- The units of a registry are those made of the listed bodies, in order. -/
structure Registry.Lists {υ β : Type} (r : Registry υ) (key : β → NodeId)
    (made : Nat → β → υ → Prop) (ds : List β) : Prop where
  size : r.units.size = ds.length
  index : ∀ node, r.index? node = ds.findIdx? fun d => key d = node
  made : ∀ (i : Nat) d u, ds[i]? = some d → r.units[i]? = some u → made i d u

/-- The name that the unit of a function literal gets. -/
def closureName (unit : String) (index : Nat) (p : Procedure Term) : String :=
  match p.name with
  | some name => name.name
  | none => nestedName unit "closure" index

namespace Assembly

/-- The offset of the next instruction. -/
def position (a : Assembly) : Nat := a.emitter.position

/-- The nested units, and the calls among the constants, are those of what has been met. -/
structure Lists (nested : Nested) (a : Assembly) (ds : Notes) : Prop where
  thunks : a.thunks.Lists (fun d => d.node)
    (fun i d u => ∃ j j', nested (nestedName a.unit "thunk" i) d.body j = .ok u j') ds.thunks
  closures : a.closures.Lists (fun d => d.1)
    (fun i d f => ∃ j j',
      Assemble.functionUnit nested (closureName a.unit i d.2) d.2 j = .ok f j') ds.closures
  sites : ∀ id : Nat, (a.pool.calls[id]?).bind (fun i => a.pool.entries[i]?)
    = (ds.sites.find? fun c => c.id = id).map fun c => .call c.call

/-! ## What holds of every assembly -/

/-- The code consists of these sketches, and every bound target lies between two of them. -/
structure Draws (a : Assembly) (ks : List Sketch) : Prop where
  code : a.emitter.code.toList = Sketch.bytes ks
  pending : a.jumps.pending.toList = Sketch.pendingFrom 0 ks
  sound : ∀ k ∈ ks, k.Sound
  marks : ∀ m t, a.jumps.position? m = some t →
    ∃ before after, ks = before ++ after ∧ t = (Sketch.bytes before).length

/-- The offset of the next instruction is the length of what was emitted. -/
lemma Draws.position {a : Assembly} {ks : List Sketch} (h : a.Draws ks) :
    a.position = (Sketch.bytes ks).length := by
  rw [← h.code, Array.length_toList]
  rfl

end Assembly

/-- Shared constants are where the maps say, and indexes fit two bytes. -/
structure Pool.Sound (p : Pool) : Prop where
  size : p.entries.size ≤ maxConstants
  names : ∀ (s : String) (i : Nat), p.names[s]? = some i → p.entries[i]? = some (.name ⟨s⟩)
  primitives : ∀ (s : String) (i : Nat),
    p.primitives[s]? = some i → p.entries[i]? = some (.primitive ⟨s⟩)
  calls : ∀ id i : Nat, p.calls[id]? = some i → ∃ c, p.entries[i]? = some (.call c)

/-- Slots are numbered in order from the first free one on, and fit one byte. -/
structure Slots.Sound (s : Slots) : Prop where
  firstFree : s.firstFree = firstLocalSlot
  index : ∀ (i : Nat) key slot, s.taken[i]? = some (key, slot) → slot.index = s.firstFree + i
  bound : s.frameSize ≤ maxSlots

/-- Every index is that of a unit, and fits two bytes. -/
structure Registry.Sound {υ : Type} (r : Registry υ) : Prop where
  size : r.units.size ≤ maxConstants
  index : ∀ node i, r.index? node = some i → i < r.units.size

/-- Labels have different targets, all of them in the table. -/
structure Jumps.Sound (j : Jumps) : Prop where
  range : ∀ id i : Nat, j.labels[id]? = some i → i < j.targets.size
  inj : ∀ id id' i : Nat, j.labels[id]? = some i → j.labels[id']? = some i → id = id'

namespace Assembly

/-- What holds of every assembly. -/
structure Sound (a : Assembly) : Prop where
  draws : ∃ ks, a.Draws ks
  pool : a.pool.Sound
  slots : a.slots.Sound
  thunks : a.thunks.Sound
  closures : a.closures.Sound
  jumps : a.jumps.Sound

/-! ## What stays -/

/-- The second assembly has all that the first one has, where the first one has it. -/
structure Extends (a b : Assembly) : Prop where
  unit : b.unit = a.unit
  options : b.options = a.options
  draws : ∀ ks, a.Draws ks → ∃ more, b.Draws (ks ++ more)
  marks : ∀ m t, a.jumps.position? m = some t → b.jumps.position? m = some t
  labels : ∀ id i : Nat, a.jumps.labels[id]? = some i → b.jumps.labels[id]? = some i
  entries : ∀ (i : Nat) (c : Constant), a.pool.entries[i]? = some c → b.pool.entries[i]? = some c
  calls : ∀ id i : Nat, a.pool.calls[id]? = some i → b.pool.calls[id]? = some i
  slots : ∀ key slot, a.slots.lookup? key = some slot → b.slots.lookup? key = some slot
  thunks : ∀ node i, a.thunks.index? node = some i → b.thunks.index? node = some i
  thunkUnits : ∀ (i : Nat) u, a.thunks.units[i]? = some u → b.thunks.units[i]? = some u
  closures : ∀ node i, a.closures.index? node = some i → b.closures.index? node = some i
  closureUnits : ∀ (i : Nat) u, a.closures.units[i]? = some u → b.closures.units[i]? = some u

lemma Extends.refl (a : Assembly) : a.Extends a where
  unit := rfl
  options := rfl
  draws ks h := ⟨[], by simpa using h⟩
  marks _ _ h := h
  labels _ _ h := h
  entries _ _ h := h
  calls _ _ h := h
  slots _ _ h := h
  thunks _ _ h := h
  thunkUnits _ _ h := h
  closures _ _ h := h
  closureUnits _ _ h := h

lemma Extends.trans {a b c : Assembly} (h : a.Extends b) (h' : b.Extends c) : a.Extends c where
  unit := h'.unit.trans h.unit
  options := h'.options.trans h.options
  draws ks hks := by
    obtain ⟨more, hmore⟩ := h.draws ks hks
    obtain ⟨more', hmore'⟩ := h'.draws _ hmore
    exact ⟨more ++ more', by rwa [← List.append_assoc]⟩
  marks m t hm := h'.marks m t (h.marks m t hm)
  labels id i hl := h'.labels id i (h.labels id i hl)
  entries i c hc := h'.entries i c (h.entries i c hc)
  calls id i hc := h'.calls id i (h.calls id i hc)
  slots key slot hs := h'.slots key slot (h.slots key slot hs)
  thunks node i hn := h'.thunks node i (h.thunks node i hn)
  thunkUnits i u hu := h'.thunkUnits i u (h.thunkUnits i u hu)
  closures node i hn := h'.closures node i (h.closures node i hn)
  closureUnits i u hu := h'.closureUnits i u (h.closureUnits i u hu)

/-! ## Targets -/

/-- The target is in the table, and no label stands for it. -/
def Anonymous (a : Assembly) (m : Mark) : Prop :=
  m.index < a.jumps.targets.size ∧ ∀ id : Nat, a.jumps.labels[id]? ≠ some m.index

/-- Only these labels are bound. -/
def Binds (a : Assembly) (placed : List Flow.Label) : Prop :=
  ∀ id i t : Nat, a.jumps.labels[id]? = some i → a.jumps.position? ⟨i⟩ = some t →
    ∃ l ∈ placed, l.id = id

/-- One piece of emitting: what was there stays, what was met is noted, and neither a label nor a
target known to be anonymous changes its standing. -/
structure Grows (nested : Nested) (vs : List Visit) (a b : Assembly) : Prop
    extends Extends a b where
  sound : b.Sound
  anonymous : ∀ m, a.Anonymous m → b.Anonymous m
  binds : ∀ placed, a.Binds placed → b.Binds placed
  notes : ∀ ds, a.Lists nested ds → b.Lists nested (ds.addAll vs)

lemma Grows.trans {nested : Nested} {vs ws : List Visit} {a b c : Assembly}
    (h : a.Grows nested vs b) (h' : b.Grows nested ws c) : a.Grows nested (vs ++ ws) c where
  toExtends := h.toExtends.trans h'.toExtends
  sound := h'.sound
  anonymous m hm := h'.anonymous m (h.anonymous m hm)
  binds placed hp := h'.binds placed (h.binds placed hp)
  notes ds hd := by
    rw [Notes.addAll_append]
    exact h'.notes _ (h.notes ds hd)

end Assembly

end CallByNeed
