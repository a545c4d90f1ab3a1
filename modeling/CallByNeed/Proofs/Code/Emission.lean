import CallByNeed.Code.OfBody
import CallByNeed.Proofs.Code.Growth

/-!
# What a piece of emitting leaves in the finished unit

`Emits nested anon vs c S` is the specification of a piece `c` of emitting: it lets the assembly
grow, meeting `vs` on its way, and says by `S` what stands in the finished unit between the offset
where the piece began and the one where it ended. There is one rule for each way of putting pieces
together and one for each primitive piece; everything larger is derived from those.
-/

namespace CallByNeed

open CallByNeed.Flow (Term Thunk Procedure NodeId CallSite)

/-! ## Finished units -/

/-- The unit is the assembly with its jumps completed. -/
structure Assembly.Links (z : Assembly) (u : CodeUnit) : Prop where
  sound : z.Sound
  name : u.name = z.unit
  code : ∀ ks, z.Draws ks → u.code.toList = Sketch.linkedBytes z.jumps ks
  bound : ∀ ks, z.Draws ks → ∀ op m, Sketch.jump op m ∈ ks →
    ∃ target, z.jumps.position? m = some target ∧ target < UInt16.size
  constants : u.constants = z.pool.entries
  slots : u.slots = z.slots.frameSize
  thunks : u.thunks = z.thunks.units.toList
  closures : u.closures = z.closures.units.toList

/-- Reading the state first. -/
lemma Assemble.get_bind_apply {α : Type} (f : Assembly → Assemble α) (a : Assembly) :
    (get >>= f) a = f a a := rfl

/-- One step after the other. -/
lemma Assemble.bind_apply {α β : Type} (c : Assemble α) (f : α → Assemble β) (a : Assembly) :
    (c >>= f) a = match c a with
      | .ok x a' => f x a'
      | .error e a' => .error e a' := by
  show EStateM.bind c f a = _
  unfold EStateM.bind
  cases c a <;> rfl

open Assemble in
/-- Finishing an assembly links it. -/
lemma Assembly.Sound.links {z z' : Assembly} {u : CodeUnit} (hz : z.Sound)
    (h : Assemble.finish z = .ok u z') : z.Links u := by
  rcases hcode : z.jumps.apply z.emitter.code with ⟨code, _ | f⟩
  case none =>
    have hrun : Assemble.finish z
        = (do
            let unit : CodeUnit :=
              { name := z.unit, code, constants := z.pool.entries, slots := z.slots.frameSize
                thunks := z.thunks.units.toList, closures := z.closures.units.toList }
            Assemble.debug (Assemble.summary unit)
            return unit : Assemble CodeUnit) z := by
      simp only [Assemble.finish, get_bind_apply, hcode]
    rw [hrun] at h
    cases h
    have hlinked : ∀ ks, z.Draws ks → code.toList = Sketch.linkedBytes z.jumps ks ∧
        ∀ op m, Sketch.jump op m ∈ ks →
          ∃ target, z.jumps.position? m = some target ∧ target < UInt16.size := by
      intro ks hks
      rw [Jumps.apply, hks.pending] at hcode
      exact Jumps.patchAll_sketch hks.sound [] hks.code hcode
    exact ⟨hz, rfl, fun ks hks => (hlinked ks hks).1, fun ks hks => (hlinked ks hks).2,
      rfl, rfl, rfl, rfl⟩
  case some =>
    simp only [Assemble.finish, get_bind_apply, hcode] at h
    cases f <;> cases h

/-! ## The judgement -/

/-- What a piece of emitting does: `S` relates its result and the offsets where its code begins and
ends with the assembly that is finished in the end and the unit made of it. -/
def Emits {α : Type} (nested : Nested) (anon : List Mark) (vs : List Visit) (c : Assemble α)
    (S : α → Nat → Nat → Assembly → CodeUnit → Prop) : Prop :=
  ∀ a x a', c a = .ok x a' → a.Sound → (∀ m ∈ anon, a.Anonymous m) →
    a.Grows nested vs a' ∧
      ∀ z u, z.Links u → a'.Extends z → S x a.position a'.position z u

namespace Emits

variable {α β : Type} {nested : Nested} {anon : List Mark} {vs ws : List Visit}
  {S S' : α → Nat → Nat → Assembly → CodeUnit → Prop}

/-- Less may be claimed. -/
lemma mono {c : Assemble α} (h : Emits nested anon vs c S)
    (hS : ∀ x p q z u, z.Links u → S x p q z u → S' x p q z u) : Emits nested anon vs c S' := by
  intro a x a' hc ha hm
  obtain ⟨hg, hs⟩ := h a x a' hc ha hm
  exact ⟨hg, fun z u hz he => hS _ _ _ _ _ hz (hs z u hz he)⟩

/-- Emitting nothing. -/
lemma nothing (x : α) :
    Emits nested anon [] (Pure.pure x : Assemble α) (fun y p q _ _ => y = x ∧ q = p) := by
  intro a y a' hc ha _
  cases hc
  exact ⟨⟨.refl a, ha, fun _ h => h, fun _ h => h, fun _ h => h⟩, fun _ _ _ _ => ⟨rfl, rfl⟩⟩

/-- Giving up. -/
lemma throw (e : CompileError) : Emits nested anon vs (MonadExcept.throw e : Assemble α) S :=
  fun _ _ _ hc => by cases hc

/-- One piece after the other. -/
lemma bind {c : Assemble α} {d : α → Assemble β}
    {T : α → β → Nat → Nat → Assembly → CodeUnit → Prop} (h : Emits nested anon vs c S)
    (h' : ∀ x, Emits nested anon ws (d x) (T x)) :
    Emits nested anon (vs ++ ws) (c >>= d)
      (fun y p r z u => ∃ x q, S x p q z u ∧ T x y q r z u) := by
  intro a y b hcd ha hm
  rw [Assemble.bind_apply] at hcd
  cases hc : c a with
  | error e a' =>
    rw [hc] at hcd
    cases hcd
  | ok x a' =>
    rw [hc] at hcd
    obtain ⟨hg, hs⟩ := h a x a' hc ha hm
    obtain ⟨hg', hs'⟩ := h' x a' y b hcd hg.sound fun m hmem => hg.anonymous m (hm m hmem)
    exact ⟨hg.trans hg', fun z u hz he =>
      ⟨x, a'.position, hs z u hz (hg'.toExtends.trans he), hs' z u hz he⟩⟩

/-- One piece after the other, where the first one has no result. -/
lemma seq {c : Assemble Unit} {d : Assemble β} {S : Unit → Nat → Nat → Assembly → CodeUnit → Prop}
    {T : β → Nat → Nat → Assembly → CodeUnit → Prop} (h : Emits nested anon vs c S)
    (h' : Emits nested anon ws d T) :
    Emits nested anon (vs ++ ws) (c >>= fun _ => d)
      (fun y p r z u => ∃ q, S () p q z u ∧ T y q r z u) :=
  (h.bind fun _ => h').mono fun _ _ _ _ _ _ ⟨_, q, h₁, h₂⟩ => ⟨q, h₁, h₂⟩

end Emits

/-! ## Growing in one component -/

namespace Assembly

variable {nested : Nested} {a : Assembly}

/-- The sketches of an assembly are read off its code and its jumps. -/
lemma Draws.congr {b : Assembly} {ks : List Sketch} (h : a.Draws ks)
    (he : b.emitter = a.emitter) (hj : b.jumps = a.jumps) : b.Draws ks where
  code := by rw [he, h.code]
  pending := by rw [hj, h.pending]
  sound := h.sound
  marks := by rw [hj]; exact h.marks

/-- Sketches are added; no target is. -/
lemma grows_emit {b : Assembly} (ha : a.Sound) (k : Sketch)
    (hb : b = { a with emitter := b.emitter, jumps := b.jumps })
    (hl : b.jumps.labels = a.jumps.labels) (ht : b.jumps.targets = a.jumps.targets)
    (hd : ∀ ks, a.Draws ks → b.Draws (ks ++ [k])) : a.Grows nested [] b := by
  have hp : ∀ m, b.jumps.position? m = a.jumps.position? m := fun m => by
    rw [Jumps.position?, ht]
    rfl
  obtain ⟨unit, options, emitter, pool, slots, jumps, thunks, closures, journal⟩ := b
  cases hb
  exact {
    unit := rfl
    options := rfl
    draws := fun ks hks => ⟨[k], hd ks hks⟩
    marks := fun m t hm => (hp m).trans hm
    labels := fun id i h => by rw [← h, ← hl]
    entries := fun _ _ h => h
    calls := fun _ _ h => h
    slots := fun _ _ h => h
    thunks := fun _ _ h => h
    thunkUnits := fun _ _ h => h
    closures := fun _ _ h => h
    closureUnits := fun _ _ h => h
    sound := ⟨ha.draws.imp' (· ++ [k]) hd, ha.pool, ha.slots, ha.thunks, ha.closures,
      fun id i h => by
        show i < jumps.targets.size
        rw [show jumps.targets = a.jumps.targets from ht]
        exact ha.jumps.range id i (by rw [← h, ← hl]),
      fun id id' i h h' => ha.jumps.inj id id' i (by rw [← h, ← hl]) (by rw [← h', ← hl])⟩
    anonymous := fun m hm => ⟨by
        show m.index < jumps.targets.size
        rw [show jumps.targets = a.jumps.targets from ht]
        exact hm.1, fun id h => hm.2 id (by rw [← h, ← hl])⟩
    binds := fun placed hplaced id i t h h' =>
      hplaced id i t (by rw [← h, ← hl]) ((hp _).symm.trans h')
    notes := fun _ h => ⟨h.thunks, h.closures, h.sites⟩ }

/-- The constants change. -/
lemma grows_pool {vs : List Visit} {p : Pool} (ha : a.Sound) (hp : p.Sound)
    (entries : ∀ (i : Nat) (c : Constant), a.pool.entries[i]? = some c → p.entries[i]? = some c)
    (calls : ∀ id i : Nat, a.pool.calls[id]? = some i → p.calls[id]? = some i)
    (notes : ∀ ds, a.Lists nested ds → ({ a with pool := p } : Assembly).Lists nested
      (ds.addAll vs)) : a.Grows nested vs { a with pool := p } where
  unit := rfl
  options := rfl
  draws ks h := ⟨[], by rw [List.append_nil]; exact h.congr rfl rfl⟩
  marks _ _ h := h
  labels _ _ h := h
  entries := entries
  calls := calls
  slots _ _ h := h
  thunks _ _ h := h
  thunkUnits _ _ h := h
  closures _ _ h := h
  closureUnits _ _ h := h
  sound := ⟨ha.draws.imp fun _ h => h.congr rfl rfl, hp, ha.slots, ha.thunks, ha.closures,
    ha.jumps⟩
  anonymous _ h := h
  binds _ h := h
  notes := notes

/-- The slots change. -/
lemma grows_slots {s : Slots} (ha : a.Sound) (hs : s.Sound)
    (slots : ∀ key slot, a.slots.lookup? key = some slot → s.lookup? key = some slot) :
    a.Grows nested [] { a with slots := s } where
  unit := rfl
  options := rfl
  draws ks h := ⟨[], by rw [List.append_nil]; exact h.congr rfl rfl⟩
  marks _ _ h := h
  labels _ _ h := h
  entries _ _ h := h
  calls _ _ h := h
  slots := slots
  thunks _ _ h := h
  thunkUnits _ _ h := h
  closures _ _ h := h
  closureUnits _ _ h := h
  sound := ⟨ha.draws.imp fun _ h => h.congr rfl rfl, ha.pool, hs, ha.thunks, ha.closures,
    ha.jumps⟩
  anonymous _ h := h
  binds _ h := h
  notes _ h := ⟨h.thunks, h.closures, h.sites⟩

end Assembly

end CallByNeed
