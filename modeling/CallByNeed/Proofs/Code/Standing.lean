import CallByNeed.Proofs.Code.Nesting
import CallByNeed.Proofs.Flow.Renaming

/-!
# Tables under other identities

The tables of an assembly when two runs of the compiler work on the same body under different
identities: what each table of the second run has in common with that of the first one (`Renamed`),
and what the first run has settled about slots and jump targets (`Stands`), which is what keeps
lookups in those tables from failing.
-/

namespace CallByNeed

open CallByNeed.Flow (Label SlotKey NodeId CallSite IdSource)

/-! ## Errors -/

/-- An error that programs can give rise to. A call is refused for its arguments, and a jump target
for its size, only if the limit is really exceeded. -/
def CompileError.OfSource : CompileError → Prop
  | .misplacedEllipsis | .multipleEllipsis _ | .unknownPrimitive _ => True
  | .tooManySlots .. | .tooManyConstants .. => True
  | .defect (.tooManyArguments text) => ∃ c : Call, text = c.text ∧ maxConstants ≤ c.args.length
  | .defect (.jumpTargetOutOfRange target) => UInt16.size ≤ target
  | .defect _ | .argumentNameMismatch .. | .unboundLabel _ => False

/-- Two runs end alike: with the same result, in states that are related, or with the same error of
source, when they have reported the same. -/
inductive EndsAlike {σ α : Type} (journal : σ → Journal) (Q : α → σ → σ → Prop) :
    EStateM.Result CompileError σ α → EStateM.Result CompileError σ α → Prop
  | ok {x : α} {s s' : σ} (h : Q x s s') : EndsAlike journal Q (.ok x s) (.ok x s')
  | error {e : CompileError} {s s' : σ} (h : e.OfSource) (hj : journal s' = journal s) :
    EndsAlike journal Q (.error e s) (.error e s')

namespace EndsAlike

variable {σ α β : Type} {journal : σ → Journal} {Q : α → σ → σ → Prop}

/-- Less may be claimed. -/
lemma mono {Q' : α → σ → σ → Prop} {c c' : EStateM.Result CompileError σ α}
    (h : EndsAlike journal Q c c') (hQ : ∀ x s s', Q x s s' → Q' x s s') : EndsAlike journal Q' c c' := by
  cases h with
  | ok h => exact .ok (hQ _ _ _ h)
  | error h hj => exact .error h hj

/-- One step after the other. -/
lemma bind {Q' : β → σ → σ → Prop} {c c' : EStateM CompileError σ α}
    {f f' : α → EStateM CompileError σ β} {s s' : σ} (h : EndsAlike journal Q (c s) (c' s'))
    (h' : ∀ x s s', Q x s s' → EndsAlike journal Q' (f x s) (f' x s')) :
    EndsAlike journal Q' ((c >>= f) s) ((c' >>= f') s') := by
  show EndsAlike journal Q' (EStateM.bind c f s) (EStateM.bind c' f' s')
  unfold EStateM.bind
  revert h
  cases c s <;> cases c' s'
  all_goals
    intro h
    cases h
  case ok.ok.ok h => exact h' _ _ _ h
  case error.error.error h hj => exact .error h hj

/-- How two runs that end alike end. -/
lemma ends {c c' : EStateM.Result CompileError σ α} (h : EndsAlike journal Q c c') :
    (∃ x s s', c = .ok x s ∧ c' = .ok x s' ∧ Q x s s') ∨
      ∃ e s s', c = .error e s ∧ c' = .error e s' ∧ e.OfSource ∧ journal s' = journal s := by
  cases h with
  | ok h => exact .inl ⟨_, _, _, rfl, rfl, h⟩
  | error h hj => exact .inr ⟨_, _, _, rfl, rfl, h, hj⟩

end EndsAlike

/-! ## Constants -/

namespace Pool

variable {ids : IdSource}

/-- The same constants, with call sites renamed. -/
structure Renamed (ids : IdSource) (p p' : Pool) : Prop where
  unit : p'.unit = p.unit
  entries : p'.entries = p.entries
  names : p'.names = p.names
  primitives : p'.primitives = p.primitives
  calls : ∀ id : Nat, p'.calls[ids.site id]? = p.calls[id]?

/-- Two steps that enter the same constant. -/
def Twins (ids : IdSource) (step step' : Entering Nat) : Prop :=
  ∀ p p', Renamed ids p p' →
    EndsAlike (fun _ => #[]) (fun _ => Renamed ids) (step p) (step' p')

lemma twins_push (c : Constant) : Twins ids (push c) (push c) := by
  intro p p' h
  have hsize : p'.size = p.size := congrArg Array.size h.entries
  unfold push
  rw [hsize, h.unit]
  split
  · exact .ok ⟨rfl, congrArg (Array.push · c) h.entries, h.names, h.primitives, h.calls⟩
  · exact .error trivial rfl

lemma twins_name (s : Symbol) : Twins ids (name s) (name s) := by
  intro p p' h
  rw [name_apply, name_apply, h.names]
  cases p.names[s.name]? with
  | some i => exact .ok h
  | none =>
    refine (twins_push (.name s) p p' h).bind fun i q q' h => .ok ?_
    exact ⟨h.unit, h.entries, congrArg (·.insert s.name i) h.names, h.primitives, h.calls⟩

lemma twins_primitive (s : Symbol) : Twins ids (primitive s) (primitive s) := by
  intro p p' h
  rw [primitive_apply, primitive_apply, h.primitives]
  cases p.primitives[s.name]? with
  | some i => exact .ok h
  | none =>
    refine (twins_push (.primitive s) p p' h).bind fun i q q' h => .ok ?_
    exact ⟨h.unit, h.entries, h.names, congrArg (·.insert s.name i) h.primitives, h.calls⟩

lemma twins_call (hids : ids.Injective) (c : CallSite) : Twins ids (call c) (call (c.rename ids)) := by
  intro p p' h
  have hsite : p'.calls[(c.rename ids).id]? = p.calls[c.id]? := h.calls c.id
  rw [call_apply, call_apply, hsite]
  cases p.calls[c.id]? with
  | some i => exact .ok h
  | none =>
    refine (twins_push (.call c.call) p p' h).bind fun i q q' h => .ok ?_
    refine ⟨h.unit, h.entries, h.names, h.primitives, fun id => ?_⟩
    have hcalls := h.calls id
    show (q'.calls.insert (ids.site c.id) i)[ids.site id]? = (q.calls.insert c.id i)[id]?
    rw [Std.TreeMap.getElem?_insert, Std.TreeMap.getElem?_insert, hcalls]
    by_cases heq : c.id = id
    · simp [heq]
    · have hne : ids.site c.id ≠ ids.site id := fun h => heq (hids.site h)
      simp [heq, hne]

end Pool

/-! ## Slots -/

namespace Slots

variable {ids : IdSource} {s s' : Slots} {planned keys : List SlotKey} {key : SlotKey}
  {kind : SlotKind}

lemma injective_renameKey (hids : ids.Injective) :
    Function.Injective (SlotKey.rename ids) := by
  intro k k' h
  cases k <;> cases k'
  case temp.temp => exact congrArg _ (hids.slot (SlotKey.temp.inj h))
  case local.local => exact congrArg _ (hids.slot (SlotKey.local.inj h))
  all_goals nomatch h

/-- The same slots, with their keys renamed. -/
structure Renamed (ids : IdSource) (s s' : Slots) : Prop where
  unit : s'.unit = s.unit
  firstFree : s'.firstFree = s.firstFree
  taken : s'.taken = s.taken.map fun e => (e.1.rename ids, e.2)
  boxed : s'.boxed = s.boxed.map (SlotKey.rename ids)

lemma Renamed.frameSize (h : Renamed ids s s') : s'.frameSize = s.frameSize := by
  unfold Slots.frameSize Slots.count
  rw [h.firstFree, h.taken, List.length_map]

lemma Renamed.lookup? (hids : ids.Injective) (h : Renamed ids s s') (key : SlotKey) :
    s'.lookup? (key.rename ids) = s.lookup? key := by
  unfold Slots.lookup?
  rw [h.taken]
  generalize s.taken = entries
  induction entries with
  | nil => rfl
  | cons e rest ih =>
    have hkey : (key.rename ids == e.1.rename ids) = (key == e.1) := by
      rw [Bool.eq_iff_iff, beq_iff_eq, beq_iff_eq]
      exact (injective_renameKey hids).eq_iff
    rw [List.map_cons, List.lookup_cons, List.lookup_cons, ih, hkey]

lemma contains_map_rename (hids : ids.Injective) (ks : List SlotKey) (key : SlotKey) :
    (ks.map (SlotKey.rename ids)).contains (key.rename ids) = ks.contains key := by
  rw [Bool.eq_iff_iff, List.contains_iff_mem, List.contains_iff_mem,
    List.mem_map_of_injective (injective_renameKey hids)]

/-- Planning a slot under other identities. -/
lemma Renamed.plan (hids : ids.Injective) (h : Renamed ids s s') (key : SlotKey)
    (kind : SlotKind) : Renamed ids (s.plan key kind) (s'.plan (key.rename ids) kind) := by
  cases kind with
  | int => exact h
  | value =>
    unfold Slots.plan
    dsimp only
    rw [h.boxed, contains_map_rename hids]
    split
    · exact h
    · exact ⟨h.unit, h.firstFree, h.taken, rfl⟩

/-- What is settled about the slots: which keys have one, and that no slot of a key that is planned
to hold values is kept for integers. -/
structure Stands (planned keys : List SlotKey) (s : Slots) : Prop where
  boxed : s.boxed = planned
  assigned : ∀ k ∈ keys, (s.lookup? k).isSome
  kinds : ∀ k slot, s.lookup? k = some slot → slot.kind = .int → k ∉ planned

lemma Stands.mono {keys' : List SlotKey} (h : Stands planned keys s) (hk : ∀ k ∈ keys', k ∈ keys) :
    Stands planned keys' s := ⟨h.boxed, fun k hm => h.assigned k (hk k hm), h.kinds⟩

/-- The slot for an assignment, under other identities: an assignment that was planned never finds a
slot of the wrong kind. -/
lemma twins_slotFor (hids : ids.Injective) (h : Renamed ids s s') (hs : Stands planned keys s)
    (hplan : kind = .value → key ∈ planned) :
    EndsAlike (fun _ => #[]) (fun _ t t' => Renamed ids t t' ∧ Stands planned (key :: keys) t)
      (slotFor key kind s) (slotFor (key.rename ids) kind s') := by
  rw [slotFor_apply, slotFor_apply, h.lookup? hids]
  cases hl : s.lookup? key with
  | some slot =>
    have hkind : ¬ (slot.kind = .int ∧ kind = .value) := fun hk =>
      hs.kinds key slot hl hk.1 (hplan hk.2)
    simp only [if_neg hkind]
    refine .ok ⟨h, hs.boxed, fun k hk => ?_, hs.kinds⟩
    rcases List.mem_cons.1 hk with rfl | hk
    · rw [hl]
      rfl
    · exact hs.assigned k hk
  | none =>
    dsimp only
    unfold allot
    rw [h.frameSize, h.boxed, contains_map_rename hids, h.unit]
    dsimp only
    split
    · refine .ok ⟨⟨rfl, h.firstFree, ?_, rfl⟩, hs.boxed, fun k hk => ?_, fun k slot hk hint => ?_⟩
      · rw [h.taken, List.map_append]
        rfl
      · show (List.lookup k (s.taken ++ [_])).isSome
        rw [List.lookup_append]
        rcases List.mem_cons.1 hk with rfl | hk
        · rw [List.lookup_cons_self]
          simp
        · have := hs.assigned k hk
          unfold Slots.lookup? at this
          simp [this]
      · have hk : List.lookup k (s.taken ++ [_]) = some slot := hk
        rw [List.lookup_append] at hk
        change (s.lookup? k).or _ = _ at hk
        cases hold : s.lookup? k with
        | some old =>
          rw [hold] at hk
          cases hk
          exact hs.kinds k _ hold hint
        | none =>
          rw [hold, Option.none_or, List.lookup_cons] at hk
          split at hk
          · rename_i heq
            cases hk
            rw [show k = key by simpa using heq, ← hs.boxed]
            intro hmem
            rw [if_pos (List.contains_iff_mem.2 hmem)] at hint
            cases hint
          · cases hk
    · exact .error trivial rfl

end Slots

/-! ## Nested units -/

namespace Registry

variable {υ : Type} {ids : IdSource} {t t' : Registry υ}

/-- The same units, with the identities of their bodies renamed. -/
structure Renamed (ids : IdSource) (t t' : Registry υ) : Prop where
  units : t'.units = t.units
  index : ∀ node : NodeId, t'.index? (node.rename ids) = t.index? node

lemma Renamed.insert (hids : ids.Injective) (h : Renamed ids t t') (node : NodeId) (unit : υ) :
    (t'.insert (node.rename ids) unit).1 = (t.insert node unit).1 ∧
      Renamed ids (t.insert node unit).2 (t'.insert (node.rename ids) unit).2 := by
  have hsize : t'.size = t.size := congrArg Array.size h.units
  refine ⟨hsize, congrArg (Array.push · unit) h.units, fun node' => ?_⟩
  rw [index?_insert, index?_insert, hsize, h.index]
  by_cases heq : node = node'
  · simp [heq]
  · have hne : node.rename ids ≠ node'.rename ids := by
      intro hne
      apply heq
      have hid := hids.node (congrArg NodeId.id hne)
      cases node
      cases node'
      exact congrArg NodeId.mk hid
    simp [heq, hne]

end Registry

/-! ## Jump targets -/

namespace Jumps

variable {ids : IdSource} {j j' : Jumps} {all placed : List Label} {idle known : List Mark}
  {l : Label} {m : Mark}

/-- The same targets, with labels renamed. Only the names that targets are reported under differ. -/
structure Renamed (ids : IdSource) (j j' : Jumps) : Prop where
  size : j'.targets.size = j.targets.size
  positions : ∀ m, j'.position? m = j.position? m
  labels : ∀ id : Nat, j'.labels[ids.label id]? = j.labels[id]?
  pending : j'.pending = j.pending

/-- What is settled about the jump targets: which labels there are and which of them are placed,
which other targets still have to be placed, and which targets may be jumped to. -/
structure Stands (all placed : List Label) (idle known : List Mark) (j : Jumps) : Prop where
  sound : j.Sound
  labels : ∀ id i : Nat, j.labels[id]? = some i → ∃ l ∈ all, l.id = id
  bound : ∀ l ∈ placed, ∃ i t : Nat, j.labels[l.id]? = some i ∧ j.position? ⟨i⟩ = some t
  unbound : ∀ id i : Nat, j.labels[id]? = some i → (∀ l ∈ placed, l.id ≠ id) →
    j.position? ⟨i⟩ = none
  loose : ∀ m ∈ idle, m.index < j.targets.size ∧ (∀ id : Nat, j.labels[id]? ≠ some m.index) ∧
    j.position? m = none
  distinct : idle.Nodup
  others : ∀ i < j.targets.size, j.position? ⟨i⟩ = none →
    ⟨i⟩ ∈ idle ∨ ∃ id : Nat, j.labels[id]? = some i
  targets : ∀ m ∈ known, m.index < j.targets.size
  pending : ∀ p ∈ j.pending.toList, p.2.index < j.targets.size

lemma Stands.mono {known' : List Mark} (h : Stands all placed idle known j)
    (hk : ∀ m ∈ known', m ∈ known) : Stands all placed idle known' j where
  sound := h.sound
  labels := h.labels
  bound := h.bound
  unbound := h.unbound
  loose := h.loose
  distinct := h.distinct
  others := h.others
  targets m hm := h.targets m (hk m hm)
  pending := h.pending

/-- The order in which targets are still to be placed does not matter. -/
lemma Stands.perm {idle' : List Mark} (h : Stands all placed idle known j)
    (hperm : idle.Perm idle') : Stands all placed idle' known j where
  sound := h.sound
  labels := h.labels
  bound := h.bound
  unbound := h.unbound
  loose m hm := h.loose m (hperm.mem_iff.2 hm)
  distinct := hperm.nodup_iff.1 h.distinct
  others i hi hnone := (h.others i hi hnone).imp hperm.mem_iff.1 id
  targets := h.targets
  pending := h.pending

lemma size_push (j : Jumps) (name : String) : (j.push name).2.targets.size = j.targets.size + 1 :=
  Array.size_push _

/-- A target without a label. -/
lemma Stands.push (h : Stands all placed idle known j) (name : String) :
    Stands all placed ((j.push name).1 :: idle) ((j.push name).1 :: known) (j.push name).2 where
  sound := ⟨fun id i hi => by
    rw [size_push]
    exact Nat.lt_succ_of_lt (h.sound.range id i hi), h.sound.inj⟩
  labels := h.labels
  bound l hl := by
    obtain ⟨i, t, hi, ht⟩ := h.bound l hl
    exact ⟨i, t, hi, by rwa [position?_push]⟩
  unbound id i hi hl := by
    rw [position?_push]
    exact h.unbound id i hi hl
  loose m hm := by
    rw [size_push, position?_push]
    rcases List.mem_cons.1 hm with rfl | hm
    · refine ⟨Nat.lt_succ_self _, fun id hid => Nat.lt_irrefl _ (h.sound.range id _ hid), ?_⟩
      show j.targets[j.targets.size]?.bind _ = none
      rw [Array.getElem?_size]
      rfl
    · obtain ⟨hlt, hlabel, hnone⟩ := h.loose m hm
      exact ⟨Nat.lt_succ_of_lt hlt, hlabel, hnone⟩
  distinct := by
    refine List.nodup_cons.2 ⟨fun hm => ?_, h.distinct⟩
    exact Nat.lt_irrefl _ (h.loose _ hm).1
  others i hi hnone := by
    rw [size_push] at hi
    rw [position?_push] at hnone
    by_cases hlt : i < j.targets.size
    · exact (h.others i hlt hnone).imp (List.mem_cons_of_mem _) id
    · have hi : i = j.targets.size := by omega
      subst hi
      exact .inl List.mem_cons_self
  targets m hm := by
    rw [size_push]
    rcases List.mem_cons.1 hm with rfl | hm
    · exact Nat.lt_succ_self _
    · exact Nat.lt_succ_of_lt (h.targets m hm)
  pending p hp := by
    rw [size_push]
    exact Nat.lt_succ_of_lt (h.pending p hp)

lemma Renamed.push (h : Renamed ids j j') (name name' : String) :
    (j'.push name').1 = (j.push name).1 ∧ Renamed ids (j.push name).2 (j'.push name').2 := by
  refine ⟨congrArg Mark.mk h.size, ?_, fun m => ?_, h.labels, h.pending⟩
  · rw [size_push, size_push, h.size]
  · rw [position?_push, position?_push, h.positions]

/-- The target of a label that has one. -/
lemma resolve_of_some {i : Nat} (h : j.labels[l.id]? = some i) : j.resolve l = (⟨i⟩, j) := by
  rw [resolve, h]

/-- The target of a label that has none yet. -/
lemma resolve_of_none (h : j.labels[l.id]? = none) :
    j.resolve l = (⟨j.targets.size⟩, { (j.push l.text).2 with
      labels := j.labels.insert l.id j.targets.size }) := by
  rw [resolve, h]
  rfl

/-- The labels when one more has a target. -/
lemma label_of_insert {i id k : Nat} (h : (j.labels.insert l.id i)[id]? = some k) :
    (l.id = id ∧ k = i) ∨ (l.id ≠ id ∧ j.labels[id]? = some k) := by
  rw [Std.TreeMap.getElem?_insert] at h
  split at h
  · rename_i heq
    exact .inl ⟨by simpa using heq, by simpa using h.symm⟩
  · rename_i hne
    exact .inr ⟨by simpa using hne, h⟩

/-- The target of a label may be jumped to. -/
lemma Stands.resolve (h : Stands all placed idle known j) (hl : l ∈ all) :
    Stands all placed idle ((j.resolve l).1 :: known) (j.resolve l).2 ∧
      (j.resolve l).2.labels[l.id]? = some (j.resolve l).1.index := by
  cases hlabel : j.labels[l.id]? with
  | some i =>
    rw [resolve_of_some hlabel]
    refine ⟨⟨h.sound, h.labels, h.bound, h.unbound, h.loose, h.distinct, h.others, ?_, h.pending⟩,
      hlabel⟩
    intro m hm
    rcases List.mem_cons.1 hm with rfl | hm
    · exact h.sound.range _ _ hlabel
    · exact h.targets m hm
  | none =>
    rw [resolve_of_none hlabel]
    have hp := h.push l.text
    have hsize := size_push j l.text
    have hpos : ∀ m, Jumps.position? { (j.push l.text).2 with
        labels := j.labels.insert l.id j.targets.size } m = j.position? m := position?_push j _
    have hend : j.position? ⟨j.targets.size⟩ = none := by simp [position?]
    refine ⟨{
      sound := ⟨fun id i hi => ?_, fun id id' i hi hi' => ?_⟩
      labels := fun id i hi => ?_
      bound := fun l' hl' => ?_
      unbound := fun id i hi hplaced => ?_
      loose := fun m hm => ?_
      distinct := h.distinct
      others := fun i hi hnone => ?_
      targets := hp.targets
      pending := hp.pending }, by simp⟩
    · rcases label_of_insert hi with ⟨-, rfl⟩ | ⟨-, hi⟩
      · exact Nat.lt_of_lt_of_eq (Nat.lt_succ_self _) hsize.symm
      · exact hp.sound.range id i hi
    · rcases label_of_insert hi with ⟨rfl, rfl⟩ | ⟨-, hi⟩ <;>
        rcases label_of_insert hi' with ⟨rfl, heq⟩ | ⟨-, hi'⟩
      · rfl
      · exact absurd (h.sound.range _ _ hi') (Nat.lt_irrefl _)
      · exact absurd (h.sound.range _ _ hi) (heq ▸ Nat.lt_irrefl _)
      · exact h.sound.inj id id' i hi hi'
    · rcases label_of_insert hi with ⟨rfl, -⟩ | ⟨-, hi⟩
      · exact ⟨l, hl, rfl⟩
      · exact h.labels id i hi
    · obtain ⟨i, t, hi, ht⟩ := h.bound l' hl'
      refine ⟨i, t, ?_, (hpos _).trans ht⟩
      rw [Std.TreeMap.getElem?_insert, if_neg]
      · exact hi
      · intro heq
        rw [show l.id = l'.id by simpa using heq, hi] at hlabel
        cases hlabel
    · rw [hpos]
      rcases label_of_insert hi with ⟨-, rfl⟩ | ⟨-, hi⟩
      · exact hend
      · exact h.unbound id i hi hplaced
    · obtain ⟨hlt, hlabels, hnone⟩ := h.loose m hm
      refine ⟨Nat.lt_of_lt_of_eq (Nat.lt_succ_of_lt hlt) hsize.symm, fun id hid => ?_,
        (hpos m).trans hnone⟩
      rcases label_of_insert hid with ⟨-, heq⟩ | ⟨-, hid⟩
      · omega
      · exact hlabels id hid
    · have hi : i < j.targets.size + 1 := Nat.lt_of_lt_of_eq hi hsize
      rw [hpos] at hnone
      by_cases hlt : i < j.targets.size
      · rcases h.others i hlt hnone with hidle | ⟨id, hid⟩
        · exact .inl hidle
        · refine .inr ⟨id, ?_⟩
          rw [Std.TreeMap.getElem?_insert, if_neg]
          · exact hid
          · intro heq
            rw [show l.id = id by simpa using heq, hid] at hlabel
            cases hlabel
      · have hi : i = j.targets.size := by omega
        subst hi
        exact .inr ⟨l.id, by simp⟩

lemma Renamed.resolve (hids : ids.Injective) (h : Renamed ids j j') (l : Label) :
    (j'.resolve (l.rename ids)).1 = (j.resolve l).1 ∧
      Renamed ids (j.resolve l).2 (j'.resolve (l.rename ids)).2 := by
  have hlabel : j'.labels[(l.rename ids).id]? = j.labels[l.id]? := h.labels l.id
  cases hl : j.labels[l.id]? with
  | some i =>
    rw [resolve_of_some hl, resolve_of_some (hlabel.trans hl)]
    exact ⟨rfl, h⟩
  | none =>
    rw [resolve_of_none hl, resolve_of_none (hlabel.trans hl)]
    obtain ⟨hmark, hpush⟩ := h.push l.text (l.rename ids).text
    refine ⟨hmark, hpush.size, hpush.positions, fun id => ?_, hpush.pending⟩
    show (j'.labels.insert (ids.label l.id) j'.targets.size)[ids.label id]?
      = (j.labels.insert l.id j.targets.size)[id]?
    rw [Std.TreeMap.getElem?_insert, Std.TreeMap.getElem?_insert, h.labels, h.size]
    by_cases heq : l.id = id
    · simp [heq]
    · have hne : ids.label l.id ≠ ids.label id := fun h => heq (hids.label h)
      simp [heq, hne]

/-- A target that has no position can be bound. -/
lemma exists_bind {p : Nat} (hlt : m.index < j.targets.size) (hnone : j.position? m = none) :
    ∃ k, j.bind m p = .ok k := by
  have ht := Array.getElem?_eq_getElem hlt
  rw [position?, ht, Option.bind_some] at hnone
  rw [bind, ht]
  dsimp only
  rw [hnone]
  exact ⟨_, rfl⟩

/-- Binding a target under other identities. -/
lemma Renamed.bind (h : Renamed ids j j') {p : Nat} {k : Jumps} (hk : j.bind m p = .ok k) :
    ∃ k', j'.bind m p = .ok k' ∧ Renamed ids k k' := by
  obtain ⟨t, ht, -, -⟩ := bind_eq_ok hk
  have hlt : m.index < j.targets.size := (Array.getElem?_eq_some_iff.1 ht).1
  obtain ⟨k', hk'⟩ := exists_bind (j := j') (m := m) (p := p) (by rwa [h.size])
    (by rw [h.positions, position?_of_bind hk])
  refine ⟨k', hk', ?_, fun m' => ?_, ?_, ?_⟩
  · rw [bind_size hk, bind_size hk', h.size]
  · rw [position?_bind hk, position?_bind hk', h.positions]
  · rw [bind_labels hk, bind_labels hk']
    exact h.labels
  · rw [bind_pending hk, bind_pending hk', h.pending]

/-- Placing a target without a label. -/
lemma Stands.place (h : Stands all placed (m :: idle) known j) {p : Nat} {k : Jumps}
    (hk : j.bind m p = .ok k) : Stands all placed idle known k := by
  have hm := h.loose m List.mem_cons_self
  have hnew : m ∉ idle := (List.nodup_cons.1 h.distinct).1
  have hpos := position?_bind hk
  refine ⟨?_, ?_, fun l hl => ?_, fun id i hi hl => ?_, fun m' hm' => ?_,
    (List.nodup_cons.1 h.distinct).2, fun i hi hnone => ?_, ?_, ?_⟩
  · exact ⟨by rw [bind_labels hk, bind_size hk]; exact h.sound.range,
      by rw [bind_labels hk]; exact h.sound.inj⟩
  · rw [bind_labels hk]
    exact h.labels
  · obtain ⟨i, t, hi, ht⟩ := h.bound l hl
    refine ⟨i, t, by rwa [bind_labels hk], ?_⟩
    rw [hpos, if_neg, ht]
    rintro rfl
    rw [hm.2.2] at ht
    cases ht
  · rw [bind_labels hk] at hi
    rw [hpos, if_neg]
    · exact h.unbound id i hi hl
    · rintro rfl
      exact hm.2.1 id hi
  · obtain ⟨hlt, hlabel, hnone⟩ := h.loose m' (List.mem_cons_of_mem _ hm')
    refine ⟨by rwa [bind_size hk], by rwa [bind_labels hk], ?_⟩
    rw [hpos, if_neg, hnone]
    rintro rfl
    exact hnew hm'
  · rw [bind_size hk] at hi
    rw [hpos] at hnone
    split at hnone
    · cases hnone
    · rename_i hne
      rcases h.others i hi hnone with hmem | hlabel
      · rcases List.mem_cons.1 hmem with rfl | hmem
        · exact absurd rfl hne
        · exact .inl hmem
      · rw [bind_labels hk]
        exact .inr hlabel
  · rw [bind_size hk]
    exact h.targets
  · rw [bind_size hk, bind_pending hk]
    exact h.pending

/-- Placing a label for the first time. -/
lemma Stands.placeLabel (h : Stands all placed idle known j) {i p : Nat} {k : Jumps}
    (hlabel : j.labels[l.id]? = some i) (hk : j.bind ⟨i⟩ p = .ok k) :
    Stands all (l :: placed) idle known k := by
  have hpos := position?_bind hk
  refine ⟨?_, ?_, fun l' hl => ?_, fun id i' hi hl => ?_, fun m' hm' => ?_, h.distinct,
    fun i' hi hnone => ?_, ?_, ?_⟩
  · exact ⟨by rw [bind_labels hk, bind_size hk]; exact h.sound.range,
      by rw [bind_labels hk]; exact h.sound.inj⟩
  · rw [bind_labels hk]
    exact h.labels
  · rw [bind_labels hk]
    rcases List.mem_cons.1 hl with rfl | hl
    · exact ⟨i, p, hlabel, by rw [hpos, if_pos rfl]⟩
    · obtain ⟨i', t, hi, ht⟩ := h.bound l' hl
      refine ⟨i', t, hi, ?_⟩
      rw [hpos, if_neg, ht]
      rintro ⟨⟩
      rw [position?_of_bind hk] at ht
      cases ht
  · rw [bind_labels hk] at hi
    rw [hpos, if_neg]
    · exact h.unbound id i' hi fun l' hl' => hl l' (List.mem_cons_of_mem _ hl')
    · rintro ⟨⟩
      exact hl l List.mem_cons_self (h.sound.inj _ _ _ hlabel hi)
  · obtain ⟨hlt, hlabels, hnone⟩ := h.loose m' hm'
    refine ⟨by rwa [bind_size hk], by rwa [bind_labels hk], ?_⟩
    rw [hpos, if_neg, hnone]
    rintro rfl
    exact hlabels _ hlabel
  · rw [bind_size hk] at hi
    rw [hpos] at hnone
    split at hnone
    · cases hnone
    · rw [bind_labels hk]
      exact h.others i' hi hnone
  · rw [bind_size hk]
    exact h.targets
  · rw [bind_size hk, bind_pending hk]
    exact h.pending

/-- Noting a jump to a target that is known. -/
lemma Stands.record (h : Stands all placed idle known j) (hm : m ∈ known) (offset : Nat) :
    Stands all placed idle known (j.record offset m) where
  sound := ⟨h.sound.range, h.sound.inj⟩
  labels := h.labels
  bound := h.bound
  unbound := h.unbound
  loose := h.loose
  distinct := h.distinct
  others := h.others
  targets := h.targets
  pending p hp := by
    have hp : p ∈ (j.pending.push (offset, m)).toList := hp
    rw [Array.toList_push, List.mem_append, List.mem_singleton] at hp
    rcases hp with hp | rfl
    · exact h.pending p hp
    · exact h.targets m hm

lemma Renamed.record (h : Renamed ids j j') (offset : Nat) (m : Mark) :
    Renamed ids (j.record offset m) (j'.record offset m) :=
  ⟨h.size, h.positions, h.labels, congrArg (Array.push · (offset, m)) h.pending⟩

/-- Once all labels are placed and no other target is left, every target has a position. -/
lemma Stands.complete (h : Stands all placed [] known j) (hall : ∀ l ∈ all, l ∈ placed) (i : Nat)
    (hi : i < j.targets.size) : ∃ t, j.position? ⟨i⟩ = some t := by
  cases hnone : j.position? ⟨i⟩ with
  | some t => exact ⟨t, rfl⟩
  | none =>
    rcases h.others i hi hnone with hmem | ⟨id, hid⟩
    · cases hmem
    · obtain ⟨l, hl, rfl⟩ := h.labels id i hid
      obtain ⟨i', t, hi', ht⟩ := h.bound l (hall l hl)
      rw [hid] at hi'
      cases hi'
      rw [hnone] at ht
      cases ht

end Jumps

end CallByNeed
