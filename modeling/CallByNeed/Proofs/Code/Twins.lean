import CallByNeed.Proofs.Code.Standing
import CallByNeed.Proofs.Flow.Written

/-!
# Two runs under different identities

`G.Twins w c c' Q` says of two pieces of emitting that they end alike when they are run in states
that differ in identities only: both succeed with the same result, or both fail with the same error,
which is one that source gives rise to. `w` is what the first run has settled before, and `Q`
relates the states after a success. With the same identities on both sides this says which errors
there are; with different ones, that nothing depends on them. There is one rule for each primitive
piece and one for each way of putting pieces together.
-/

namespace CallByNeed

open CallByNeed.Flow (Term Thunk Procedure NodeId CallSite Label SlotKey IdSource Body)

/-- What two runs on the same body share: the identities of the second one, the options, the labels
of the body, and the keys that are planned to hold values. -/
structure Ground where
  ids : IdSource
  injective : ids.Injective
  options : CompilerOptions
  labels : List Label
  planned : List SlotKey

/-- What has been settled at some point: the keys that have a slot, the labels that are placed, the
targets without labels that are still to be placed, and the targets that may be jumped to. -/
structure Standing where
  keys : List SlotKey
  placed : List Label
  idle : List Mark
  known : List Mark

namespace Standing

variable (w : Standing)

/-- One more key has a slot. -/
def assign (key : SlotKey) : Standing := { w with keys := key :: w.keys }

/-- One more label is placed. -/
def place (l : Label) : Standing := { w with placed := l :: w.placed }

/-- One more target may be jumped to. -/
def aim (m : Mark) : Standing := { w with known := m :: w.known }

/-- One more target may be jumped to, and is still to be placed. -/
def await (m : Mark) : Standing := { w with idle := m :: w.idle, known := m :: w.known }

end Standing

namespace Ground

/-- Two assemblies that differ in identities only, and what is settled in them. -/
structure Twin (G : Ground) (w : Standing) (a a' : Assembly) : Prop where
  unit : a'.unit = a.unit
  options : a.options = G.options ∧ a'.options = G.options
  emitter : a'.emitter = a.emitter
  journal : a'.journal = a.journal
  pool : a.pool.Renamed G.ids a'.pool
  slots : a.slots.Renamed G.ids a'.slots
  jumps : a.jumps.Renamed G.ids a'.jumps
  thunks : a.thunks.Renamed G.ids a'.thunks
  closures : a.closures.Renamed G.ids a'.closures
  keys : a.slots.Stands G.planned w.keys
  targets : a.jumps.Stands G.labels w.placed w.idle w.known

/-- Two pieces of emitting that end alike. -/
def Twins {α : Type} (G : Ground) (w : Standing) (c c' : Assemble α)
    (Q : α → Assembly → Assembly → Prop) : Prop :=
  ∀ a a', G.Twin w a a' → EndsAlike Assembly.journal Q (c a) (c' a')

/-- Two pieces of emitting that end alike and settle nothing. -/
def Keeps {α : Type} (G : Ground) (w : Standing) (c c' : Assemble α) : Prop :=
  G.Twins w c c' fun _ => G.Twin w

section

variable {G : Ground} {w w' : Standing} {α β : Type} {c c' : Assemble α}
  {f f' : α → Assemble β} {Q : α → Assembly → Assembly → Prop}

/-! ## Putting pieces together -/

lemma Twins.mono {Q' : α → Assembly → Assembly → Prop} (h : G.Twins w c c' Q)
    (hQ : ∀ x b b', Q x b b' → Q' x b b') : G.Twins w c c' Q' := by
  intro a a' ha
  exact (h a a' ha).mono hQ

/-- One piece after the other. -/
lemma Twins.bind {v : α → Standing} {R : β → Assembly → Assembly → Prop}
    (h : G.Twins w c c' fun x => G.Twin (v x)) (h' : ∀ x, G.Twins (v x) (f x) (f' x) R) :
    G.Twins w (c >>= f) (c' >>= f') R := by
  intro a a' ha
  exact (h a a' ha).bind fun x b b' hb => h' x b b' hb

/-- One piece that settles nothing, and then another one. -/
lemma Keeps.bind {R : β → Assembly → Assembly → Prop} (h : G.Keeps w c c')
    (h' : ∀ x, G.Twins w (f x) (f' x) R) : G.Twins w (c >>= f) (c' >>= f') R := Twins.bind h h'

/-- One piece without result that settles nothing, and then another one. -/
lemma Keeps.seq {c c' : Assemble Unit} {d d' : Assemble β} {R : β → Assembly → Assembly → Prop}
    (h : G.Keeps w c c') (h' : G.Twins w d d' R) :
    G.Twins w (c >>= fun _ => d) (c' >>= fun _ => d') R := h.bind fun _ => h'

lemma Keeps.pure (x : α) : G.Keeps w (Pure.pure x) (Pure.pure x) := fun _ _ h => .ok h

/-- Giving up for a reason that source can give. -/
lemma Twins.throw {e : CompileError} (h : e.OfSource) :
    G.Twins w (throw e : Assemble α) (throw e) Q := fun _ _ ha => .error h ha.journal

/-- Less may be settled. -/
lemma Twin.mono {a a' : Assembly} (h : G.Twin w a a') (hkeys : ∀ k ∈ w'.keys, k ∈ w.keys)
    (hplaced : w'.placed = w.placed) (hidle : w'.idle = w.idle)
    (hknown : ∀ m ∈ w'.known, m ∈ w.known) : G.Twin w' a a' where
  unit := h.unit
  options := h.options
  emitter := h.emitter
  journal := h.journal
  pool := h.pool
  slots := h.slots
  jumps := h.jumps
  thunks := h.thunks
  closures := h.closures
  keys := h.keys.mono hkeys
  targets := by
    rw [hplaced, hidle]
    exact h.targets.mono hknown

/-! ## Instructions -/

/-- Appending the same instruction. -/
lemma Twin.append {a a' : Assembly} (h : G.Twin w a a') (i : Instruction) :
    G.Twin w { a with emitter := a.emitter.append i }
      { a' with emitter := a'.emitter.append i } where
  unit := h.unit
  options := h.options
  emitter := congrArg (Emitter.append · i) h.emitter
  journal := h.journal
  pool := h.pool
  slots := h.slots
  jumps := h.jumps
  thunks := h.thunks
  closures := h.closures
  keys := h.keys
  targets := h.targets

lemma Keeps.emit (op : Opcode) (operands : List Nat) :
    G.Keeps w (Assemble.emit op operands) (Assemble.emit op operands) :=
  fun _ _ h => .ok (h.append ⟨op, operands⟩)

/-- A jump to a target that is known. -/
lemma Keeps.jump (op : Opcode) {m : Mark} (hm : m ∈ w.known) :
    G.Keeps w (Assemble.jump op m) (Assemble.jump op m) := by
  intro a a' h
  have hposition : a'.emitter.position = a.emitter.position := congrArg Emitter.position h.emitter
  have hrun : ∀ a : Assembly, Assemble.jump op m a = .ok () { a with
      emitter := a.emitter.append ⟨op, [unpatchedJump]⟩
      jumps := a.jumps.record a.emitter.position m } := fun _ => rfl
  rw [hrun, hrun, hposition]
  have happend := h.append ⟨op, [unpatchedJump]⟩
  exact .ok {
    unit := h.unit
    options := h.options
    emitter := happend.emitter
    journal := h.journal
    pool := h.pool
    slots := h.slots
    jumps := h.jumps.record _ m
    thunks := h.thunks
    closures := h.closures
    keys := h.keys
    targets := h.targets.record hm _ }

/-! ## Constants -/

/-- A step on the pool. -/
lemma Keeps.onPool {step step' : Entering Nat} (h : Pool.Twins G.ids step step') :
    G.Keeps w (Assemble.onPool step) (Assemble.onPool step') := by
  intro a a' ha
  rw [Assembly.onPool_apply, Assembly.onPool_apply]
  rcases (h a.pool a'.pool ha.pool).ends with ⟨x, p, p', hp, hp', hrenamed⟩ | ⟨e, p, p', hp, hp', he, -⟩
  · rw [hp, hp']
    exact .ok ⟨ha.unit, ha.options, ha.emitter, ha.journal, hrenamed, ha.slots, ha.jumps,
      ha.thunks, ha.closures, ha.keys, ha.targets⟩
  · rw [hp, hp']
    exact .error he ha.journal

lemma Keeps.nameIndex (s : Symbol) :
    G.Keeps w (Assemble.nameIndex s) (Assemble.nameIndex s) := .onPool (Pool.twins_name s)

lemma Keeps.primitiveIndex (s : Symbol) :
    G.Keeps w (Assemble.primitiveIndex s) (Assemble.primitiveIndex s) :=
  .onPool (Pool.twins_primitive s)

lemma Keeps.callIndex (c : CallSite) :
    G.Keeps w (Assemble.callIndex c) (Assemble.callIndex (c.rename G.ids)) :=
  .onPool (Pool.twins_call G.injective c)

/-! ## Slots -/

/-- The slot for an assignment that was planned. -/
lemma Twins.slotFor {key : SlotKey} {kind : SlotKind} (hplan : kind = .value → key ∈ G.planned) :
    G.Twins w (Assemble.slotFor key kind) (Assemble.slotFor (key.rename G.ids) kind)
      fun _ => G.Twin (w.assign key) := by
  intro a a' ha
  unfold Assemble.slotFor
  rw [Assembly.onSlots_apply, Assembly.onSlots_apply]
  rcases (Slots.twins_slotFor G.injective ha.slots ha.keys hplan).ends with
    ⟨x, t, t', ht, ht', hrenamed, hstands⟩ | ⟨e, t, t', ht, ht', he, -⟩
  · rw [ht, ht']
    exact .ok ⟨ha.unit, ha.options, ha.emitter, ha.journal, ha.pool, hrenamed, ha.jumps,
      ha.thunks, ha.closures, hstands, ha.targets⟩
  · rw [ht, ht']
    exact .error he ha.journal

/-- Reading a slot that was assigned. -/
lemma Keeps.loadSlot {k : SlotKey} (hk : k ∈ w.keys) (shown shown' : String) :
    G.Keeps w (Assemble.loadSlot k shown) (Assemble.loadSlot (k.rename G.ids) shown') := by
  intro a a' ha
  obtain ⟨slot, hslot⟩ := Option.isSome_iff_exists.1 (ha.keys.assigned k hk)
  have hslot' := (ha.slots.lookup? G.injective k).trans hslot
  unfold Assemble.loadSlot
  rw [Assemble.get_bind_apply, Assemble.get_bind_apply, hslot, hslot']
  obtain ⟨index, _ | _⟩ := slot
  · exact (Keeps.emit .loadInt [index]).seq (Keeps.pure SlotKind.int) a a' ha
  · exact (Keeps.emit .load [index]).seq (Keeps.pure SlotKind.value) a a' ha

/-! ## Jump targets -/

/-- The jump targets change alike. -/
lemma Twin.setJumps {a a' : Assembly} {j j' : Jumps} (h : G.Twin w a a')
    (hj : j.Renamed G.ids j') (hs : j.Stands G.labels w'.placed w'.idle w'.known)
    (hkeys : w'.keys = w.keys) : G.Twin w' { a with jumps := j } { a' with jumps := j' } where
  unit := h.unit
  options := h.options
  emitter := h.emitter
  journal := h.journal
  pool := h.pool
  slots := h.slots
  jumps := hj
  thunks := h.thunks
  closures := h.closures
  keys := by
    rw [hkeys]
    exact h.keys
  targets := hs

/-- The target of a label of the body. -/
lemma Twins.resolve {l : Label} (hl : l ∈ G.labels) :
    G.Twins w (Assemble.resolve l) (Assemble.resolve (l.rename G.ids))
      fun m => G.Twin (w.aim m) := by
  intro a a' ha
  have hrun : ∀ (l : Label) (a : Assembly), Assemble.resolve l a
      = .ok (a.jumps.resolve l).1 { a with jumps := (a.jumps.resolve l).2 } := fun _ _ => rfl
  obtain ⟨hmark, hj⟩ := ha.jumps.resolve G.injective l
  rw [hrun, hrun, hmark]
  exact .ok (ha.setJumps hj (ha.targets.resolve hl).1 rfl)

/-- A target without a label. -/
lemma Twins.freshMark :
    G.Twins w Assemble.freshMark Assemble.freshMark fun m => G.Twin (w.await m) := by
  intro a a' ha
  have hrun : ∀ a : Assembly, Assemble.freshMark a
      = .ok a.jumps.fresh.1 { a with jumps := a.jumps.fresh.2 } := fun _ => rfl
  let shown : Assembly → String := fun a => s!"anon{a.jumps.targets.size}"
  obtain ⟨hmark, hj⟩ := ha.jumps.push (shown a) (shown a')
  rw [hrun, hrun, show a'.jumps.fresh.1 = a.jumps.fresh.1 from hmark]
  exact .ok (ha.setJumps hj (ha.targets.push _) rfl)

/-- Running what binds a target. -/
lemma place_apply (m : Mark) (a : Assembly) :
    Assemble.place m a = match a.jumps.bind m a.emitter.position with
      | .ok j => .ok () { a with jumps := j }
      | .error e => .error e a := by
  rw [Assemble.place, Assemble.get_bind_apply]
  cases a.jumps.bind m a.emitter.position <;> rfl

/-- Placing a target that has no label. -/
lemma Twins.place {m : Mark} {rest : List Mark} (hidle : w.idle.Perm (m :: rest)) :
    G.Twins w (Assemble.place m) (Assemble.place m) fun _ => G.Twin { w with idle := rest } := by
  intro a a' ha
  have hs := ha.targets.perm hidle
  obtain ⟨hlt, -, hnone⟩ := hs.loose m List.mem_cons_self
  obtain ⟨j, hj⟩ := Jumps.exists_bind (p := a.emitter.position) hlt hnone
  obtain ⟨j', hj', hrenamed⟩ := ha.jumps.bind hj
  rw [place_apply, place_apply, congrArg Emitter.position ha.emitter, hj, hj']
  exact .ok (ha.setJumps hrenamed (hs.place hj) rfl)

/-- Placing a label for the first time. -/
lemma Twins.placeLabel {l : Label} (hl : l ∈ G.labels) (hnew : l ∉ w.placed) :
    G.Twins w (Assemble.resolve l >>= Assemble.place)
      (Assemble.resolve (l.rename G.ids) >>= Assemble.place) fun _ => G.Twin (w.place l) := by
  intro a a' ha
  have hrun : ∀ (l : Label) (a : Assembly), (Assemble.resolve l >>= Assemble.place) a
      = Assemble.place (a.jumps.resolve l).1 { a with jumps := (a.jumps.resolve l).2 } :=
    fun _ _ => rfl
  obtain ⟨hmark, hrenamed⟩ := ha.jumps.resolve G.injective l
  obtain ⟨hs, hlabel⟩ := ha.targets.resolve hl
  have hids : ∀ l' ∈ w.placed, l'.id ≠ l.id := by
    intro l' hl' heq
    obtain rfl : l' = l := by
      cases l'
      cases l
      exact congrArg Label.mk heq
    exact hnew hl'
  obtain ⟨j, hj⟩ := Jumps.exists_bind (p := a.emitter.position) (hs.sound.range _ _ hlabel)
    (hs.unbound _ _ hlabel hids)
  obtain ⟨j', hj', hbound⟩ := hrenamed.bind hj
  rw [hrun, hrun, hmark, place_apply, place_apply, congrArg Emitter.position ha.emitter, hj, hj']
  have hplaced := hs.placeLabel hlabel hj
  exact .ok (ha.setJumps hbound (hplaced.mono fun m hm => List.mem_cons_of_mem _ hm) rfl)

end

end Ground

/-! ## Nested units -/

namespace Compiling

variable {α β : Type}

/-- Two steps of compiling end alike: with the same result or the same error of source, and with the
same reports. -/
def Coincides (c c' : Compiling α) : Prop :=
  ∀ j, EndsAlike id (fun _ k k' => k' = k) (c j) (c' j)

lemma Coincides.pure (x : α) : Coincides (Pure.pure x) (Pure.pure x) := fun _ => .ok rfl

lemma Coincides.bind {c c' : Compiling α} {f f' : α → Compiling β} (h : Coincides c c')
    (h' : ∀ x, Coincides (f x) (f' x)) : Coincides (c >>= f) (c' >>= f') := by
  intro j
  refine (h j).bind fun x k k' hk => ?_
  subst hk
  exact h' x k'

lemma Coincides.mapM {γ : Type} {f : α → Compiling β} {f' : γ → Compiling β} {ρ : α → γ}
    {xs : List α} (h : ∀ x ∈ xs, Coincides (f x) (f' (ρ x))) :
    Coincides (xs.mapM f) ((xs.map ρ).mapM f') := by
  induction xs with
  | nil => exact .pure _
  | cons x xs ih =>
    rw [List.map_cons, List.mapM_cons, List.mapM_cons]
    refine (h x List.mem_cons_self).bind fun y => ?_
    exact (ih fun x hx => h x (List.mem_cons_of_mem _ hx)).bind fun ys => .pure _

end Compiling

open Compiling (Coincides)

/-- The unit of a nested body does not depend on the identities in it. -/
def Nested.Coincides (ids : IdSource) (nested nested' : Nested) (b : Body) : Prop :=
  ∀ name, Compiling.Coincides (nested name b) (nested' name (b.rename ids))

/-- The units of what is met do not depend on identities. -/
def Visit.Coincides (ids : IdSource) (nested nested' : Nested) : Visit → Prop
  | .thunk d => nested.Coincides ids nested' d.body
  | .closure _ p => nested.Coincides ids nested' p.body ∧
    ∀ f ∈ p.formals, ∀ d, f.default = some d → nested.Coincides ids nested' d.body
  | .site _ => True

/-- The unit of a function literal does not depend on the identities in it. -/
lemma Assemble.coincides_functionUnit {ids : IdSource} {nested nested' : Nested} {p : Procedure Term}
    (hbody : nested.Coincides ids nested' p.body)
    (hdefaults : ∀ f ∈ p.formals, ∀ d, f.default = some d → nested.Coincides ids nested' d.body)
    (name : String) :
    Coincides (functionUnit nested name p) (functionUnit nested' name (p.rename ids)) := by
  unfold functionUnit
  refine (Coincides.mapM fun f hf => ?_).bind fun fs => (hbody name).bind fun u => .pure _
  obtain ⟨x, _ | d⟩ := f
  · exact .pure _
  · exact (hdefaults _ hf d rfl _).bind fun u => .pure _

namespace Ground

variable {G : Ground} {w : Standing} {nested nested' : Nested}

/-- A step that needs the journal only. -/
lemma Keeps.journaled {α : Type} {step step' : Compiling α} (h : Coincides step step') :
    G.Keeps w (Assemble.journaled step) (Assemble.journaled step') := by
  intro a a' ha
  rw [Assembly.journaled_apply, Assembly.journaled_apply, ha.journal]
  rcases (h a.journal).ends with ⟨x, k, k', hk, hk', hsame⟩ | ⟨e, k, k', hk, hk', he, hsame⟩
  · rw [hk, hk']
    exact .ok ⟨ha.unit, ha.options, ha.emitter, hsame, ha.pool, ha.slots, ha.jumps, ha.thunks,
      ha.closures, ha.keys, ha.targets⟩
  · rw [hk, hk']
    exact .error he hsame

lemma Keeps.checkRoom (count : Nat) :
    G.Keeps w (Assemble.checkRoom count) (Assemble.checkRoom count) := by
  intro a a' ha
  unfold Assemble.checkRoom
  by_cases h : count ≥ maxConstants
  · rw [if_pos h, Assemble.get_bind_apply, Assemble.get_bind_apply, ha.unit]
    exact .error (e := .tooManyConstants a.unit maxConstants) trivial ha.journal
  · rw [if_neg h]
    exact .ok ha

/-- The index of the unit of a late argument. -/
lemma Keeps.thunkIndex {d : Thunk} (h : nested.Coincides G.ids nested' d.body) :
    G.Keeps w (Assemble.thunkIndex nested d) (Assemble.thunkIndex nested' (d.rename G.ids)) := by
  intro a a' ha
  have hsize : a'.thunks.size = a.thunks.size := congrArg Array.size ha.thunks.units
  have hindex : a'.thunks.index? (d.rename G.ids).node = a.thunks.index? d.node :=
    ha.thunks.index d.node
  unfold Assemble.thunkIndex
  rw [Assemble.get_bind_apply, Assemble.get_bind_apply, hindex, hsize, ha.unit]
  cases a.thunks.index? d.node with
  | some i => exact .ok ha
  | none =>
    refine (Keeps.checkRoom _).seq ((Keeps.journaled (h _)).bind fun unit => ?_) a a' ha
    intro b b' hb
    obtain ⟨hi, hthunks⟩ := hb.thunks.insert G.injective d.node unit
    have hrun : ∀ (node : NodeId) (b : Assembly), (modifyGet fun a : Assembly =>
        ((a.thunks.insert node unit).1, { a with thunks := (a.thunks.insert node unit).2 }) :
          Assemble Nat) b = .ok (b.thunks.insert node unit).1
            { b with thunks := (b.thunks.insert node unit).2 } := fun _ _ => rfl
    refine Eq.mp (congrArg₂ _ (hrun d.node b).symm (hrun (d.node.rename G.ids) b').symm) ?_
    rw [hi]
    exact .ok ⟨hb.unit, hb.options, hb.emitter, hb.journal, hb.pool, hb.slots, hb.jumps, hthunks,
      hb.closures, hb.keys, hb.targets⟩

/-- The index of a function literal. -/
lemma Keeps.closureIndex {node : NodeId} {p : Procedure Term}
    (hbody : nested.Coincides G.ids nested' p.body)
    (hdefaults : ∀ f ∈ p.formals, ∀ d, f.default = some d → nested.Coincides G.ids nested' d.body) :
    G.Keeps w (Assemble.closureIndex nested node p)
      (Assemble.closureIndex nested' (node.rename G.ids) (p.rename G.ids)) := by
  intro a a' ha
  have hsize : a'.closures.size = a.closures.size := congrArg Array.size ha.closures.units
  have hindex : a'.closures.index? (node.rename G.ids) = a.closures.index? node :=
    ha.closures.index node
  have hname : closureName a'.unit a'.closures.size (p.rename G.ids)
      = closureName a.unit a.closures.size p := by
    rw [ha.unit, hsize]
    rfl
  rw [Assembly.closureIndex_apply, Assembly.closureIndex_apply, hindex, hname, hsize]
  cases a.closures.index? node with
  | some i => exact .ok ha
  | none =>
    refine (Keeps.checkRoom _).seq ((Keeps.journaled
      (Assemble.coincides_functionUnit hbody hdefaults _)).bind fun unit => ?_) a a' ha
    intro b b' hb
    obtain ⟨hi, hclosures⟩ := hb.closures.insert G.injective node unit
    have hrun : ∀ (node : NodeId) (b : Assembly), (modifyGet fun a : Assembly =>
        ((a.closures.insert node unit).1, { a with closures := (a.closures.insert node unit).2 }) :
          Assemble Nat) b = .ok (b.closures.insert node unit).1
            { b with closures := (b.closures.insert node unit).2 } := fun _ _ => rfl
    rw [hrun, hrun, hi]
    exact .ok ⟨hb.unit, hb.options, hb.emitter, hb.journal, hb.pool, hb.slots, hb.jumps, hb.thunks,
      hclosures, hb.keys, hb.targets⟩

end Ground

end CallByNeed
