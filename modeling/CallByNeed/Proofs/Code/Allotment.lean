import CallByNeed.Proofs.Code.Tables
import Mathlib.Data.List.Induction
import Mathlib.Data.List.Nodup

/-!
# Sequences of calls on the slots

Whatever is asked of the slots of a unit, in whatever order: the keys get the indexes from the first
free one on in the order in which they are first used, as far as one byte goes
(`Slots.keys_run`), and what a key has got it keeps (`Slots.lookup?_run`). A call that fails
changes nothing (`Slots.unchanged_of_error`).

When everything that is going to be assigned has been planned before the first slot is handed out,
the kind of a slot is settled by the plans alone (`Slots.Prepared.kind_iff`), so that no slot for
integers is ever asked to hold a value.
-/

namespace CallByNeed

open CallByNeed.Flow (SlotKey)

namespace Slots

/-! ## Calls -/

/-- What can be asked of the slots of a unit. -/
inductive Call where
  | plan (key : SlotKey) (kind : SlotKind)
  | slotFor (key : SlotKey) (kind : SlotKind)
  | lookup (key : SlotKey)
deriving DecidableEq

namespace Call

/-- What a call answers: a slot, if it is asked for one and the key has one. -/
def answer : Call → Allotting (Option Slot)
  | plan key kind => do
    modify fun s => s.plan key kind
    return none
  | slotFor key kind => do
    let slot ← Slots.slotFor key kind
    return some slot
  | lookup key => return (← get).lookup? key

/-- The key that a call uses: one that is only planned or looked up is not used yet. -/
def uses? : Call → Option SlotKey
  | slotFor key _ => some key
  | _ => none

end Call

/-- The slots after a call, whether it fails or not. -/
def after (s : Slots) (c : Call) : Slots :=
  match c.answer s with
  | .ok _ t | .error _ t => t

/-- The slots after some calls. -/
def run (s : Slots) (cs : List Call) : Slots := cs.foldl after s

/-- The slots of a unit before any call. -/
def start (unit : String) (firstFree : Nat) : Slots := { unit, firstFree }

/-- The keys that calls use, in the order of their first use. -/
def firstUses (cs : List Call) : List SlotKey := (cs.filterMap Call.uses?).eraseDups

variable {s t : Slots} {key key' : SlotKey} {kind : SlotKind} {slot slot' : Slot} {e : CompileError}
  {c : Call} {cs ds : List Call}

@[simp] lemma run_nil (s : Slots) : s.run [] = s := rfl

lemma run_append (s : Slots) (cs ds : List Call) : s.run (cs ++ ds) = (s.run cs).run ds :=
  List.foldl_append

lemma run_concat (s : Slots) (cs : List Call) (c : Call) :
    s.run (cs ++ [c]) = (s.run cs).after c := run_append s cs [c]

/-! ## One call -/

/-- The slot that is handed out for a key that has none. -/
def next (s : Slots) (key : SlotKey) (kind : SlotKind) : Slot :=
  ⟨s.frameSize, if s.boxed.contains key then .value else kind⟩

/-- What an assignment gets: the slot of its key, unless it is one for integers and a value is
assigned; the next slot, if there is one left and the key has none. -/
lemma slotFor_eq (key : SlotKey) (kind : SlotKind) (s : Slots) :
    Slots.slotFor key kind s = match s.lookup? key with
      | some slot =>
        if slot.kind = .int ∧ kind = .value then .error (.defect (.slotReboxed slot.index s.unit)) s
        else .ok slot s
      | none =>
        if s.frameSize < maxSlots then
          .ok (s.next key kind) { s with taken := s.taken ++ [(key, s.next key kind)] }
        else .error (.tooManySlots s.unit maxSlots) s := by
  rw [slotFor_apply]
  cases s.lookup? key with
  | none => rfl
  | some slot =>
    dsimp only
    split <;> rfl

/-- Answering an assignment. -/
lemma answer_slotFor (key : SlotKey) (kind : SlotKind) (s : Slots) :
    (Call.slotFor key kind).answer s = match Slots.slotFor key kind s with
      | .ok slot t => .ok (some slot) t
      | .error e t => .error e t := by
  show EStateM.bind (Slots.slotFor key kind) _ s = _
  unfold EStateM.bind
  cases Slots.slotFor key kind s <;> rfl

@[simp] lemma after_plan (s : Slots) (key : SlotKey) (kind : SlotKind) :
    s.after (.plan key kind) = s.plan key kind := rfl

@[simp] lemma after_lookup (s : Slots) (key : SlotKey) : s.after (.lookup key) = s := rfl

/-- A key that has a slot keeps it. -/
lemma after_slotFor_of_some (h : s.lookup? key = some slot) :
    s.after (.slotFor key kind) = s := by
  rw [after, answer_slotFor, slotFor_eq, h]
  by_cases hkind : slot.kind = .int ∧ kind = .value
  · simp only [if_pos hkind]
  · simp only [if_neg hkind]

/-- A key without a slot gets the next one, if there is one left. -/
lemma after_slotFor_of_none (h : s.lookup? key = none) :
    s.after (.slotFor key kind) = if s.frameSize < maxSlots then
      { s with taken := s.taken ++ [(key, s.next key kind)] } else s := by
  rw [after, answer_slotFor, slotFor_eq, h]
  by_cases hroom : s.frameSize < maxSlots
  · simp only [if_pos hroom]
  · simp only [if_neg hroom]

/-- Planning changes no slot. -/
lemma taken_plan (s : Slots) (key : SlotKey) (kind : SlotKind) :
    (s.plan key kind).taken = s.taken := by
  cases kind with
  | int => rfl
  | value =>
    unfold plan
    dsimp only
    split <;> rfl

/-- A call fails, and leaves everything as it is, when there is no slot left for a new key, or when
a value is assigned to a slot for integers; there is no other failure. -/
lemma unchanged_of_error (h : c.answer s = .error e t) : t = s ∧ ∃ key kind,
    c = .slotFor key kind ∧
      ((s.lookup? key = none ∧ maxSlots ≤ s.frameSize ∧ e = .tooManySlots s.unit maxSlots) ∨
        ∃ slot, s.lookup? key = some slot ∧ slot.kind = .int ∧ kind = .value ∧
          e = .defect (.slotReboxed slot.index s.unit)) := by
  cases c with
  | plan key kind => cases h
  | lookup key => cases h
  | slotFor key kind =>
    rw [answer_slotFor, slotFor_eq] at h
    cases hl : s.lookup? key with
    | none =>
      by_cases hroom : s.frameSize < maxSlots
      · simp only [hl, if_pos hroom] at h
        cases h
      · simp only [hl, if_neg hroom] at h
        cases h
        exact ⟨rfl, key, kind, rfl, .inl ⟨hl, Nat.le_of_not_lt hroom, rfl⟩⟩
    | some slot =>
      by_cases hkind : slot.kind = .int ∧ kind = .value
      · simp only [hl, if_pos hkind] at h
        cases h
        exact ⟨rfl, key, kind, rfl, .inr ⟨slot, hl, hkind.1, hkind.2, rfl⟩⟩
      · simp only [hl, if_neg hkind] at h
        cases h

/-- What a call hands out is found again. -/
lemma lookup?_of_slotFor (h : Slots.slotFor key kind s = .ok slot t) :
    t.lookup? key = some slot := by
  rw [slotFor_eq] at h
  cases hl : s.lookup? key with
  | some old =>
    simp only [hl] at h
    split at h
    · cases h
    · cases h
      exact hl
  | none =>
    simp only [hl] at h
    split at h
    · cases h
      show (s.taken ++ [(key, _)]).lookup key = _
      rw [List.lookup_append]
      show (s.lookup? key).or _ = _
      rw [hl, Option.none_or, List.lookup_cons_self]
    · cases h

/-- A new key is refused when it would get an index that one byte does not hold, and only then is
anything refused for want of slots. -/
lemma slotFor_tooMany_iff (key : SlotKey) (kind : SlotKind) (s : Slots) :
    (∃ t, Slots.slotFor key kind s = .error (.tooManySlots s.unit maxSlots) t) ↔
      s.lookup? key = none ∧ maxSlots ≤ s.frameSize := by
  rw [slotFor_eq]
  cases s.lookup? key with
  | some slot =>
    dsimp only
    split <;> simp
  | none =>
    by_cases hroom : s.frameSize < maxSlots
    · simp [hroom]
    · simp [hroom, Nat.le_of_not_lt hroom]

/-! ## All calls -/

/-- The keys that have a slot have it from the first free one on, each key one. -/
structure InOrder (s : Slots) : Prop where
  index : ∀ (i : Nat) key slot, s.taken[i]? = some (key, slot) → slot.index = s.firstFree + i
  nodup : (s.taken.map Prod.fst).Nodup

lemma inOrder_start (unit : String) (firstFree : Nat) : (start unit firstFree).InOrder :=
  ⟨fun _ _ _ h => by simp [start] at h, List.nodup_nil⟩

/-- A key has a slot if it stands in the list. -/
lemma lookup?_eq_none_iff : s.lookup? key = none ↔ key ∉ s.taken.map Prod.fst := by
  rw [lookup?, List.lookup_eq_none_iff, List.mem_map]
  constructor
  · rintro h ⟨x, hx, rfl⟩
    simpa using h x hx
  · intro h x hx
    exact bne_iff_ne.2 fun heq => h ⟨x, hx, heq.symm⟩

/-- The slot of a key is the one that it stands with in the list. -/
lemma InOrder.lookup?_iff (h : s.InOrder) :
    s.lookup? key = some slot ↔ ∃ i : Nat, s.taken[i]? = some (key, slot) := by
  refine ⟨mem_of_lookup?, fun ⟨i, hi⟩ => ?_⟩
  cases hl : s.lookup? key with
  | none =>
    refine absurd ?_ (lookup?_eq_none_iff.1 hl)
    exact List.mem_map.2 ⟨_, List.mem_of_getElem? hi, rfl⟩
  | some slot' =>
    obtain ⟨k, hk⟩ := mem_of_lookup? hl
    have hlt : k < (s.taken.map Prod.fst).length := by
      rw [List.length_map]
      exact (List.getElem?_eq_some_iff.1 hk).1
    have hkeys : (s.taken.map Prod.fst)[k]? = (s.taken.map Prod.fst)[i]? := by
      rw [List.getElem?_map, List.getElem?_map, hk, hi]
      rfl
    obtain rfl := (List.getElem?_inj hlt h.nodup).1 hkeys
    rw [hk] at hi
    cases hi
    rfl

/-- Only assignments to new keys change what has been handed out. -/
lemma after_cases (s : Slots) (c : Call) : (s.after c).taken = s.taken ∨
    ∃ key kind, c = .slotFor key kind ∧ s.lookup? key = none ∧ s.frameSize < maxSlots ∧
      s.after c = { s with taken := s.taken ++ [(key, s.next key kind)] } := by
  cases c with
  | plan key kind => exact .inl (taken_plan s key kind)
  | lookup key => exact .inl rfl
  | slotFor key kind =>
    cases hl : s.lookup? key with
    | some slot => exact .inl (by rw [after_slotFor_of_some hl])
    | none =>
      rw [after_slotFor_of_none hl]
      by_cases hroom : s.frameSize < maxSlots
      · exact .inr ⟨key, kind, rfl, hl, hroom, by rw [if_pos hroom]⟩
      · exact .inl (by rw [if_neg hroom])

/-- The unit and the first free slot are given once and for all. -/
lemma fixed_after (s : Slots) (c : Call) :
    (s.after c).unit = s.unit ∧ (s.after c).firstFree = s.firstFree := by
  cases c with
  | lookup key => exact ⟨rfl, rfl⟩
  | plan key kind =>
    cases kind with
    | int => exact ⟨rfl, rfl⟩
    | value =>
      rw [after_plan, plan]
      split <;> exact ⟨rfl, rfl⟩
  | slotFor key kind =>
    cases hl : s.lookup? key with
    | some slot =>
      rw [after_slotFor_of_some hl]
      exact ⟨rfl, rfl⟩
    | none =>
      rw [after_slotFor_of_none hl]
      split <;> exact ⟨rfl, rfl⟩

lemma fixed_run (s : Slots) (cs : List Call) :
    (s.run cs).unit = s.unit ∧ (s.run cs).firstFree = s.firstFree := by
  induction cs generalizing s with
  | nil => exact ⟨rfl, rfl⟩
  | cons c cs ih =>
    obtain ⟨hunit, hfree⟩ := ih (s.after c)
    exact ⟨hunit.trans (fixed_after s c).1, hfree.trans (fixed_after s c).2⟩

/-- One call keeps the order. -/
lemma InOrder.after (h : s.InOrder) (c : Call) : (s.after c).InOrder := by
  have hfree := (fixed_after s c).2
  rcases after_cases s c with htaken | ⟨key, kind, rfl, hnone, -, hafter⟩
  · exact ⟨by rw [htaken, hfree]; exact h.index, by rw [htaken]; exact h.nodup⟩
  · rw [hafter]
    refine ⟨fun i key' slot hi => ?_, ?_⟩
    · have hi : (s.taken ++ [(key, s.next key kind)])[i]? = some (key', slot) := hi
      rw [List.getElem?_append] at hi
      split at hi
      case isTrue => exact h.index i key' slot hi
      case isFalse hge =>
        obtain ⟨hlt, hi⟩ := List.getElem?_eq_some_iff.1 hi
        rw [List.length_singleton] at hlt
        rw [List.getElem_singleton] at hi
        cases hi
        show s.firstFree + s.taken.length = s.firstFree + i
        omega
    · show ((s.taken ++ [(key, s.next key kind)]).map Prod.fst).Nodup
      rw [List.map_append, List.map_singleton, ← List.concat_eq_append]
      exact List.Nodup.concat (lookup?_eq_none_iff.1 hnone) h.nodup

lemma InOrder.run (h : s.InOrder) (cs : List Call) : (s.run cs).InOrder := by
  induction cs generalizing s with
  | nil => exact h
  | cons c cs ih => exact ih (h.after c)

/-- What a key has got it keeps. -/
lemma lookup?_run (h : s.lookup? key = some slot) (cs : List Call) :
    (s.run cs).lookup? key = some slot := by
  induction cs generalizing s with
  | nil => exact h
  | cons c cs ih =>
    refine ih ?_
    rcases after_cases s c with htaken | ⟨key', kind, rfl, -, -, hafter⟩
    · rw [lookup?, htaken]
      exact h
    · rw [hafter]
      show (s.taken ++ [_]).lookup key = _
      rw [List.lookup_append]
      show (s.lookup? key).or _ = _
      rw [h, Option.some_or]

/-! ## The order of first use -/

/-- A key that is used again is not new. -/
lemma firstUses_concat (cs : List Call) (c : Call) : firstUses (cs ++ [c]) = match c.uses? with
    | some key => if key ∈ firstUses cs then firstUses cs else firstUses cs ++ [key]
    | none => firstUses cs := by
  unfold firstUses
  rw [List.filterMap_append]
  cases hc : c.uses? with
  | none => simp [hc]
  | some key =>
    rw [List.filterMap_cons_some hc, List.filterMap_nil, List.eraseDups_append]
    generalize cs.filterMap Call.uses? = keys
    by_cases hmem : key ∈ keys
    · simp [List.removeAll, hmem]
    · simp [List.removeAll, hmem, List.eraseDups_cons]

/-- The keys that have a slot are those used first, in this order, as many as one byte numbers. -/
lemma keys_run (unit : String) (firstFree : Nat) (cs : List Call) :
    ((start unit firstFree).run cs).taken.map Prod.fst
      = (firstUses cs).take (maxSlots - firstFree) := by
  induction cs using List.reverseRecOn with
  | nil => simp [start, firstUses]
  | append_singleton cs c ih =>
    rw [run_concat, firstUses_concat]
    have hfree : ((start unit firstFree).run cs).firstFree = firstFree := (fixed_run _ cs).2
    generalize (start unit firstFree).run cs = s at ih hfree ⊢
    have hsize : s.frameSize = firstFree + ((firstUses cs).take (maxSlots - firstFree)).length := by
      rw [frameSize, count, hfree, ← ih, List.length_map]
    rw [List.length_take] at hsize
    cases c with
    | plan key kind => rw [after_plan, taken_plan, ih]; rfl
    | lookup key => exact ih
    | slotFor key kind =>
      show _ = (if key ∈ firstUses cs then firstUses cs else firstUses cs ++ [key]).take _
      cases hl : s.lookup? key with
      | some slot =>
        have hmem : key ∈ s.taken.map Prod.fst := by
          by_contra hnot
          rw [lookup?_eq_none_iff.2 hnot] at hl
          cases hl
        rw [ih] at hmem
        rw [after_slotFor_of_some hl, ih, if_pos (List.mem_of_mem_take hmem)]
      | none =>
        have hnot := lookup?_eq_none_iff.1 hl
        rw [ih] at hnot
        rw [after_slotFor_of_none hl]
        by_cases hroom : s.frameSize < maxSlots
        · have hall : (firstUses cs).take (maxSlots - firstFree) = firstUses cs :=
            List.take_of_length_le (by omega)
          rw [hall] at hnot ih
          rw [if_pos hroom, if_neg hnot, List.take_of_length_le (by simp; omega)]
          show (s.taken ++ [_]).map Prod.fst = _
          rw [List.map_append, ih, List.map_singleton]
        · have hfull : maxSlots - firstFree ≤ (firstUses cs).length := by omega
          rw [if_neg hroom, ih]
          split
          · rfl
          · rw [List.take_append_of_le_length hfull]

/-- What is known of the slots `s` after the calls `cs`, the first free slot being `firstFree`. -/
structure Allots (unit : String) (firstFree : Nat) (cs : List Call) (s : Slots) : Prop where
  /-- The keys have the slots from the first free one on, in the order of their first use. -/
  given : ∀ (i : Nat) key, (firstUses cs)[i]? = some key → firstFree + i < maxSlots →
    ∃ kind, s.lookup? key = some ⟨firstFree + i, kind⟩
  /-- There are no other slots. -/
  only : ∀ key slot, s.lookup? key = some slot →
    ∃ i : Nat, (firstUses cs)[i]? = some key ∧ slot.index = firstFree + i ∧ slot.index < maxSlots
  distinct : ∀ key key' slot slot', s.lookup? key = some slot → s.lookup? key' = some slot' →
    slot.index = slot'.index → key = key'
  kept : ∀ key slot more, s.lookup? key = some slot → (s.run more).lookup? key = some slot
  size : s.frameSize = firstFree + min (firstUses cs).length (maxSlots - firstFree)
  /-- The slot that an assignment gets is the one of its key from then on. -/
  answered : ∀ key kind slot t, Slots.slotFor key kind s = .ok slot t → t.lookup? key = some slot
  full : ∀ key kind, (∃ t, Slots.slotFor key kind s = .error (.tooManySlots unit maxSlots) t) ↔
    s.lookup? key = none ∧ maxSlots ≤ s.frameSize
  /-- A call that fails changes nothing. If there is a slot left, it assigns a value to a slot for
  integers. -/
  failed : ∀ (c : Call) e t, c.answer s = .error e t → t = s ∧ ∃ key kind, c = .slotFor key kind ∧
    (e = .tooManySlots unit maxSlots ∨ ∃ slot, s.lookup? key = some slot ∧ slot.kind = .int ∧
      kind = .value ∧ e = .defect (.slotReboxed slot.index unit))

/-- Every sequence of calls hands out slots in order. -/
lemma allots_run (unit : String) (firstFree : Nat) (cs : List Call) :
    Allots unit firstFree cs ((start unit firstFree).run cs) := by
  have hkeys := keys_run unit firstFree cs
  have horder := (inOrder_start unit firstFree).run cs
  obtain ⟨hunit, hfree⟩ : ((start unit firstFree).run cs).unit = unit ∧
    ((start unit firstFree).run cs).firstFree = firstFree := fixed_run _ cs
  generalize (start unit firstFree).run cs = s at *
  have honly : ∀ key slot, s.lookup? key = some slot → ∃ i : Nat,
      (firstUses cs)[i]? = some key ∧ slot.index = firstFree + i ∧ slot.index < maxSlots := by
    intro key slot h
    obtain ⟨i, hi⟩ := horder.lookup?_iff.1 h
    have hindex := horder.index i key slot hi
    rw [hfree] at hindex
    have hkey : (s.taken.map Prod.fst)[i]? = some key := by
      rw [List.getElem?_map, hi, Option.map_some]
    rw [hkeys, List.getElem?_take] at hkey
    split at hkey
    case isTrue hlt => exact ⟨i, hkey, hindex, by omega⟩
    case isFalse => cases hkey
  have hsize : s.frameSize = firstFree + min (firstUses cs).length (maxSlots - firstFree) := by
    rw [frameSize, count, hfree, ← List.length_map (f := Prod.fst), hkeys, List.length_take,
      Nat.min_comm]
  refine
    { given := fun i key hi hlt => ?_
      only := honly
      distinct := fun key key' slot slot' h h' heq => ?_
      kept := fun key slot more h => lookup?_run h more
      size := hsize
      answered := fun key kind slot t => lookup?_of_slotFor
      full := fun key kind => by rw [← hunit]; exact slotFor_tooMany_iff key kind s
      failed := fun c e t h => ?_ }
  · have htaken : (s.taken.map Prod.fst)[i]? = some key := by
      rw [hkeys, List.getElem?_take, if_pos (by omega), hi]
    rw [List.getElem?_map, Option.map_eq_some_iff] at htaken
    obtain ⟨⟨key, slot⟩, htaken, rfl⟩ := htaken
    have hindex := horder.index i key slot htaken
    rw [hfree] at hindex
    exact ⟨slot.kind, horder.lookup?_iff.2 ⟨i, by rw [htaken, ← hindex]⟩⟩
  · obtain ⟨i, hi, hindex, -⟩ := honly key slot h
    obtain ⟨k, hk, hindex', -⟩ := honly key' slot' h'
    obtain rfl : i = k := by omega
    rw [hi] at hk
    exact Option.some.inj hk
  · obtain ⟨ht, key, kind, hc, hwhy⟩ := unchanged_of_error h
    rw [hunit] at hwhy
    exact ⟨ht, key, kind, hc, hwhy.imp (fun h => h.2.2) id⟩

/-! ## Plans made in time -/

/-- What is planned to hold a value has been planned so. -/
lemma mem_boxed_run (s : Slots) (cs : List Call) :
    key ∈ (s.run cs).boxed ↔ key ∈ s.boxed ∨ .plan key .value ∈ cs := by
  induction cs generalizing s with
  | nil => simp
  | cons c cs ih =>
    have hstep : key ∈ (s.after c).boxed ↔ key ∈ s.boxed ∨ c = .plan key .value := by
      cases c with
      | lookup key' => simp
      | slotFor key' kind =>
        cases hl : s.lookup? key' with
        | some slot => simp [after_slotFor_of_some hl]
        | none =>
          rw [after_slotFor_of_none hl]
          split <;> simp
      | plan key' kind =>
        cases kind with
        | int => simp [plan]
        | value =>
          rw [after_plan, plan]
          split
          case isTrue hmem =>
            have hmem := List.contains_iff_mem.1 hmem
            simp only [Call.plan.injEq, and_true]
            exact ⟨.inl, fun h => h.elim id fun heq => heq ▸ hmem⟩
          case isFalse =>
            simp only [List.mem_cons, Call.plan.injEq, and_true]
            rw [or_comm, @eq_comm _ key]
    show key ∈ ((s.after c).run cs).boxed ↔ _
    rw [ih, hstep, or_assoc, List.mem_cons, @eq_comm _ c]

/-- All that is going to be assigned is planned in `plans`, before any slot is handed out; after
that, only slots for assignments so planned are asked for. -/
structure Prepared (plans calls : List Call) : Prop where
  early : ∀ key kind, .slotFor key kind ∉ plans
  planned : ∀ key kind, .slotFor key kind ∈ calls → .plan key kind ∈ plans
  late : ∀ key kind, .plan key kind ∈ calls → .plan key kind ∈ plans

/-- What is known of the slots when all assignments of `plans` are planned and then only slots for
these are asked for. -/
structure Settled (unit : String) (plans : List Call) (s : Slots) : Prop where
  /-- No slot for integers is asked to hold a value. -/
  boxes : ∀ key kind e t, .plan key kind ∈ plans → Slots.slotFor key kind s = .error e t →
    e = .tooManySlots unit maxSlots
  /-- A slot is for integers exactly if all assignments to it are. -/
  kinds : ∀ key slot, s.lookup? key = some slot →
    (slot.kind = .int ↔ ∀ kind, .plan key kind ∈ plans → kind = .int)

namespace Prepared

variable {unit : String} {firstFree : Nat} {plans calls : List Call}

/-- Nothing is handed out while plans are made. -/
lemma lookup?_early (h : ∀ key kind, .slotFor key kind ∉ plans) (key : SlotKey) :
    ((start unit firstFree).run plans).lookup? key = none := by
  have hnone : firstUses plans = [] := by
    have huses : plans.filterMap Call.uses? = [] := by
      rw [List.filterMap_eq_nil_iff]
      intro c hc
      cases c with
      | slotFor key kind => exact absurd hc (h key kind)
      | plan | lookup => rfl
    rw [firstUses, huses]
    rfl
  rw [lookup?_eq_none_iff, keys_run, hnone]
  simp

/-- The kind of a slot is settled by the plans: it holds integers exactly if no value is planned for
its key. -/
lemma kind_iff (h : Prepared plans calls)
    (hslot : ((start unit firstFree).run (plans ++ calls)).lookup? key = some slot) :
    slot.kind = .int ↔ .plan key .value ∉ plans := by
  induction calls using List.reverseRecOn generalizing slot with
  | nil =>
    rw [List.append_nil, lookup?_early h.early] at hslot
    cases hslot
  | append_singleton calls c ih =>
    have hbefore : Prepared plans calls :=
      ⟨h.early, fun key kind hc => h.planned key kind (List.mem_append_left _ hc),
        fun key kind hc => h.late key kind (List.mem_append_left _ hc)⟩
    rw [← List.append_assoc, run_concat] at hslot
    have hboxed : key ∈ ((start unit firstFree).run (plans ++ calls)).boxed ↔
        .plan key .value ∈ plans := by
      rw [mem_boxed_run, List.mem_append]
      constructor
      · rintro (hnil | hmem | hmem)
        · cases hnil
        · exact hmem
        · exact hbefore.late key .value hmem
      · exact fun hmem => .inr (.inl hmem)
    have ih := @ih slot hbefore
    generalize (start unit firstFree).run (plans ++ calls) = s at hslot hboxed ih
    rcases after_cases s c with htaken | ⟨key', kind, rfl, hnone, -, hafter⟩
    · exact ih (by rwa [lookup?, htaken] at hslot)
    · rw [hafter] at hslot
      have hslot : (s.taken ++ [(key', s.next key' kind)]).lookup key = some slot := hslot
      rw [List.lookup_append] at hslot
      change (s.lookup? key).or _ = _ at hslot
      cases hl : s.lookup? key with
      | some old =>
        rw [hl, Option.some_or] at hslot
        exact ih (hl.trans hslot)
      | none =>
        rw [hl, Option.none_or, List.lookup_cons] at hslot
        split at hslot
        case h_2 => cases hslot
        case h_1 heq =>
          obtain rfl : key = key' := eq_of_beq heq
          cases hslot
          have hplanned : Call.plan key kind ∈ plans := h.planned key kind (by simp)
          show (if s.boxed.contains key then SlotKind.value else kind) = .int ↔ _
          rw [← hboxed]
          by_cases hmem : key ∈ s.boxed
          · simp [hmem]
          · rw [if_neg (by simpa using hmem)]
            cases kind with
            | int => simp [hmem]
            | value => exact absurd (hboxed.2 hplanned) hmem

/-- No slot for integers is asked to hold a value: an assignment that is planned is refused for want
of slots only. -/
lemma error_eq (h : Prepared plans calls) (hplan : .plan key kind ∈ plans)
    (herror : Slots.slotFor key kind ((start unit firstFree).run (plans ++ calls)) = .error e t) :
    e = .tooManySlots unit maxSlots := by
  have hanswer : (Call.slotFor key kind).answer ((start unit firstFree).run (plans ++ calls))
      = .error e t := by
    rw [answer_slotFor, herror]
  obtain ⟨-, key', kind', hcall, ⟨-, -, rfl⟩ | ⟨slot, hslot, hint, hvalue, -⟩⟩ :=
    unchanged_of_error hanswer
  · rw [(fixed_run _ _).1]
    rfl
  · cases hcall
    subst hvalue
    exact absurd hplan ((h.kind_iff hslot).1 hint)

lemma settled (h : Prepared plans calls) (unit : String) (firstFree : Nat) :
    Settled unit plans ((start unit firstFree).run (plans ++ calls)) where
  boxes _ _ _ _ hplan herror := h.error_eq hplan herror
  kinds key slot hslot := by
    rw [h.kind_iff hslot]
    refine ⟨fun hnot kind hkind => ?_, fun hall hvalue => nomatch hall _ hvalue⟩
    cases kind with
    | int => rfl
    | value => exact absurd hkind hnot

end Prepared

end Slots

end CallByNeed
