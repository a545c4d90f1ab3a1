import CallByNeed.Code.Jumps
import CallByNeed.Proofs.Code.Decoding

/-!
# Completing jumps

Code is emitted with placeholders for the operands of jumps, and with a note of each jump. A
`Sketch` is an instruction as it is emitted: plain, or a jump to a target by number. The code of a
list of sketches and the notes that go with it are `Sketch.bytes` and `Sketch.pendingFrom`.

The main statement is `Jumps.patchAll_sketch`: completing exactly the noted jumps turns the code of
the sketches into the code of the same instructions with the bound positions as operands, and
changes no other byte.
-/

namespace CallByNeed

/-- A jump has one operand of two bytes. -/
lemma Opcode.widths_of_isJump {op : Opcode} (h : op.isJump = true) : op.widths = [2] := by
  cases op <;> first | rfl | cases h

/-! ## Sketches -/

/-- An instruction as it is emitted. -/
inductive Sketch where
  | plain (i : Instruction)
  /-- A jump whose operand is a placeholder. -/
  | jump (op : Opcode) (target : Mark)

namespace Sketch

/-- The instruction that stands in the code before jumps are completed. -/
def raw : Sketch → Instruction
  | plain i => i
  | jump op _ => ⟨op, [unpatchedJump]⟩

/-- The instruction that stands in the code once jumps are completed. -/
def linked (j : Jumps) : Sketch → Instruction
  | plain i => i
  | jump op m => ⟨op, [(j.position? m).getD 0]⟩

/-- A plain instruction has the operands of its kind and is no jump, and what waits for a target is
a jump. -/
def Sound : Sketch → Prop
  | plain i => i.Shaped ∧ i.op.isJump = false
  | jump op _ => op.isJump = true

/-- The code of sketches before jumps are completed. -/
def bytes (ks : List Sketch) : List UInt8 := ks.flatMap fun k => k.raw.encode

/-- The code of sketches once jumps are completed. -/
def linkedBytes (j : Jumps) (ks : List Sketch) : List UInt8 :=
  ks.flatMap fun k => (k.linked j).encode

/-- The notes of the jumps among sketches that begin at an offset. -/
def pendingFrom : Nat → List Sketch → List (Nat × Mark)
  | _, [] => []
  | p, plain i :: rest => pendingFrom (p + i.op.size) rest
  | p, jump op m :: rest => (p, m) :: pendingFrom (p + op.size) rest

/-- What stands in the code has the operands of its kind. -/
lemma Sound.shaped_raw {k : Sketch} (h : k.Sound) : k.raw.Shaped := by
  cases k with
  | plain i => exact h.1
  | jump op m =>
    show [unpatchedJump].length = op.widths.length
    rw [Opcode.widths_of_isJump h]
    rfl

/-- What will stand in the code has the operands of its kind. -/
lemma Sound.shaped_linked {k : Sketch} (j : Jumps) (h : k.Sound) : (k.linked j).Shaped := by
  cases k with
  | plain i => exact h.1
  | jump op m =>
    show [(j.position? m).getD 0].length = op.widths.length
    rw [Opcode.widths_of_isJump h]
    rfl

/-- Completing a jump does not change its kind. -/
@[simp] lemma linked_op (j : Jumps) (k : Sketch) : (k.linked j).op = k.raw.op := by
  cases k <;> rfl

/-- Completing jumps does not change the length of the code. -/
lemma length_linkedBytes (j : Jumps) {ks : List Sketch} (h : ∀ k ∈ ks, k.Sound) :
    (linkedBytes j ks).length = (bytes ks).length := by
  induction ks with
  | nil => rfl
  | cons k ks ih =>
    have hk : k.Sound := h k (by simp)
    rw [linkedBytes, bytes, List.flatMap_cons, List.flatMap_cons, List.length_append,
      List.length_append, (hk.shaped_linked j).length_encode, hk.shaped_raw.length_encode,
      linked_op]
    exact congrArg _ (ih fun k hm => h k (by simp [hm]))

/-- The notes of sketches one after the other. -/
lemma pendingFrom_append {ks ls : List Sketch} (p : Nat) (h : ∀ k ∈ ks, k.Sound) :
    pendingFrom p (ks ++ ls) = pendingFrom p ks ++ pendingFrom (p + (bytes ks).length) ls := by
  induction ks generalizing p with
  | nil => simp [pendingFrom, bytes]
  | cons k ks ih =>
    have hk : k.raw.encode.length = k.raw.op.size := (h k (by simp)).shaped_raw.length_encode
    have hlen : (bytes (k :: ks)).length = k.raw.op.size + (bytes ks).length := by
      rw [bytes, List.flatMap_cons, List.length_append, hk]
      rfl
    have ihk := ih (p + k.raw.op.size) fun k hm => h k (by simp [hm])
    rw [hlen, ← Nat.add_assoc]
    cases k with
    | plain i => exact ihk
    | jump op m => exact congrArg ((p, m) :: ·) ihk

end Sketch

/-! ## Overwriting -/

/-- Bytes written over as many others take their place. -/
lemma Bytes.overwrite?_append {code : Bytes} {pre old new post : List UInt8}
    (h : code.toList = pre ++ (old ++ post)) (hlen : old.length = new.length) :
    ∃ code', code.overwrite? pre.length new = some code' ∧
      code'.toList = pre ++ (new ++ post) := by
  induction new generalizing code pre old with
  | nil =>
    have hold : old = [] := List.length_eq_zero_iff.1 hlen
    subst hold
    exact ⟨code, rfl, h⟩
  | cons b new ih =>
    cases old with
    | nil => simp at hlen
    | cons c old =>
      have hsize : pre.length < code.size := by
        rw [← Array.length_toList, h]
        simp
      have hset : (code.setIfInBounds pre.length b).toList
          = (pre ++ [b]) ++ (old ++ post) := by
        rw [Array.toList_setIfInBounds, h, List.set_append_right _ _ (Nat.le_refl _)]
        simp
      obtain ⟨code', hw, hcode'⟩ := ih hset (by simpa using hlen)
      refine ⟨code', ?_, by simpa using hcode'⟩
      simp only [Bytes.overwrite?, if_pos hsize]
      simpa using hw

/-! ## Completing -/

namespace Jumps

variable {j : Jumps}

/-- Completing one jump replaces its instruction and nothing else. -/
lemma patch_sketch {code code' : Bytes} {pre post : List UInt8} {op : Opcode} {m : Mark}
    (hj : op.isJump = true)
    (h : code.toList = pre ++ ((Sketch.jump op m).raw.encode ++ post))
    (hp : j.patch code pre.length m = .ok code') :
    code'.toList = pre ++ (((Sketch.jump op m).linked j).encode ++ post) ∧
      ∃ target, j.position? m = some target ∧ target < UInt16.size := by
  have hop : code[pre.length]?.bind Opcode.ofByte? = some op := by
    rw [← Array.getElem?_toList, h, List.getElem?_append_right (Nat.le_refl _), Nat.sub_self]
    exact Opcode.ofByte?_toByte op
  unfold Jumps.patch at hp
  split at hp
  · cases hp
  · rename_i t ht
    split at hp
    · cases hp
    · rename_i target htarget
      have hpos : j.position? m = some target := by
        rw [Jumps.position?, ht, Option.bind_some, htarget]
      split at hp
      · cases hp
      · rename_i hlt
        have hsound : (Sketch.jump op m).Sound := hj
        have hlinked : (Sketch.jump op m).linked j = ⟨op, [target]⟩ := by
          rw [Sketch.linked, hpos, Option.getD_some]
        have hlen : (Sketch.jump op m).raw.encode.length
            = (Instruction.encode ⟨op, [target]⟩).length := by
          rw [← hlinked, hsound.shaped_raw.length_encode,
            (hsound.shaped_linked j).length_encode, Sketch.linked_op]
        obtain ⟨patched, hw, hpatched⟩ := Bytes.overwrite?_append h hlen
        rw [hop] at hp
        simp only [if_pos hj, hw, Except.ok.injEq] at hp
        subst hp
        refine ⟨?_, target, hpos, Nat.not_le.1 hlt⟩
        rw [hpatched, hlinked]

/-- Completing the noted jumps of sketches gives the code of the same instructions with the bound
positions as operands; every target is bound within the range of an operand. -/
theorem patchAll_sketch {ks : List Sketch} (hs : ∀ k ∈ ks, k.Sound) {code code' : Bytes}
    (pre : List UInt8) (h : code.toList = pre ++ Sketch.bytes ks)
    (hp : j.patchAll (Sketch.pendingFrom pre.length ks) code = (code', none)) :
    code'.toList = pre ++ Sketch.linkedBytes j ks ∧
      ∀ op m, Sketch.jump op m ∈ ks →
        ∃ target, j.position? m = some target ∧ target < UInt16.size := by
  induction ks generalizing code pre with
  | nil =>
    cases hp
    exact ⟨h, by simp⟩
  | cons k ks ih =>
    have hk : k.Sound := hs k (by simp)
    have hks : ∀ k ∈ ks, k.Sound := fun k hm => hs k (by simp [hm])
    have hsize : (pre ++ (k.linked j).encode).length = pre.length + k.raw.op.size := by
      rw [List.length_append, (hk.shaped_linked j).length_encode, Sketch.linked_op]
    have hout : pre ++ Sketch.linkedBytes j (k :: ks)
        = (pre ++ (k.linked j).encode) ++ Sketch.linkedBytes j ks := by
      simp [Sketch.linkedBytes]
    rw [hout]
    cases k with
    | plain i =>
      have hcode : code.toList = (pre ++ i.encode) ++ Sketch.bytes ks := by
        rw [h]
        simp [Sketch.bytes, Sketch.raw]
      rw [Sketch.pendingFrom, show pre.length + i.op.size = (pre ++ i.encode).length from
        hsize.symm] at hp
      obtain ⟨hcode', hbound⟩ := ih hks _ hcode hp
      exact ⟨hcode', fun op m hm => hbound op m (by simpa using hm)⟩
    | jump op m =>
      rw [Sketch.pendingFrom, Jumps.patchAll] at hp
      cases hpatch : j.patch code pre.length m with
      | error f =>
        rw [hpatch] at hp
        cases hp
      | ok patched =>
        rw [hpatch] at hp
        have hcode : code.toList
            = pre ++ ((Sketch.jump op m).raw.encode ++ Sketch.bytes ks) := by
          rw [h]
          simp [Sketch.bytes]
        obtain ⟨hpatched, target, htarget, hlt⟩ := patch_sketch hk hcode hpatch
        rw [← List.append_assoc] at hpatched
        rw [show pre.length + op.size
          = (pre ++ ((Sketch.jump op m).linked j).encode).length from hsize.symm] at hp
        obtain ⟨hcode', hbound⟩ := ih hks _ hpatched hp
        refine ⟨hcode', fun op' m' hm => ?_⟩
        rcases List.mem_cons.1 hm with heq | hm
        · cases heq
          exact ⟨target, htarget, hlt⟩
        · exact hbound op' m' hm

/-- Completing one jump fails only if its target lies too far away, when the target is bound. -/
lemma patch_sketch_error {code : Bytes} {pre post : List UInt8} {op : Opcode} {m : Mark}
    {target : Nat} {f : Failure} (hj : op.isJump = true)
    (h : code.toList = pre ++ ((Sketch.jump op m).raw.encode ++ post))
    (hpos : j.position? m = some target) (hp : j.patch code pre.length m = .error f) :
    UInt16.size ≤ target ∧ f = .error (.defect (.jumpTargetOutOfRange target)) := by
  have hop : code[pre.length]?.bind Opcode.ofByte? = some op := by
    rw [← Array.getElem?_toList, h, List.getElem?_append_right (Nat.le_refl _), Nat.sub_self]
    exact Opcode.ofByte?_toByte op
  unfold Jumps.position? at hpos
  unfold Jumps.patch at hp
  cases ht : j.targets[m.index]? with
  | none =>
    rw [ht] at hpos
    cases hpos
  | some t =>
    rw [ht, Option.bind_some] at hpos
    rw [ht] at hp
    dsimp only at hp
    rw [hpos] at hp
    dsimp only at hp
    by_cases hge : target ≥ UInt16.size
    · rw [if_pos hge] at hp
      cases hp
      exact ⟨hge, rfl⟩
    · have hsound : (Sketch.jump op m).Sound := hj
      have hshaped : Instruction.Shaped ⟨op, [target]⟩ := by
        show [target].length = op.widths.length
        rw [Opcode.widths_of_isJump hj]
        rfl
      have hlen : (Sketch.jump op m).raw.encode.length
          = (Instruction.encode ⟨op, [target]⟩).length := by
        rw [hsound.shaped_raw.length_encode, hshaped.length_encode]
        rfl
      obtain ⟨patched, hw, -⟩ := Bytes.overwrite?_append h hlen
      rw [if_neg hge, hop] at hp
      simp only [if_pos hj, hw] at hp
      cases hp

/-- Completing the noted jumps of sketches fails only if a target lies too far away, when all
targets are bound. -/
theorem patchAll_sketch_error {ks : List Sketch} (hs : ∀ k ∈ ks, k.Sound) {code code' : Bytes}
    {f : Failure} (pre : List UInt8) (h : code.toList = pre ++ Sketch.bytes ks)
    (hbound : ∀ op m, Sketch.jump op m ∈ ks → ∃ target, j.position? m = some target)
    (hp : j.patchAll (Sketch.pendingFrom pre.length ks) code = (code', some f)) :
    ∃ target, UInt16.size ≤ target ∧ f = .error (.defect (.jumpTargetOutOfRange target)) := by
  induction ks generalizing code pre with
  | nil => cases hp
  | cons k ks ih =>
    have hk : k.Sound := hs k (by simp)
    have hks : ∀ k ∈ ks, k.Sound := fun k hm => hs k (by simp [hm])
    have hrest : ∀ op m, Sketch.jump op m ∈ ks → ∃ target, j.position? m = some target :=
      fun op m hm => hbound op m (by simp [hm])
    have hsize : (pre ++ (k.linked j).encode).length = pre.length + k.raw.op.size := by
      rw [List.length_append, (hk.shaped_linked j).length_encode, Sketch.linked_op]
    cases k with
    | plain i =>
      have hcode : code.toList = (pre ++ i.encode) ++ Sketch.bytes ks := by
        rw [h]
        simp [Sketch.bytes, Sketch.raw]
      rw [Sketch.pendingFrom, show pre.length + i.op.size = (pre ++ i.encode).length from
        hsize.symm] at hp
      exact ih hks _ hcode hrest hp
    | jump op m =>
      obtain ⟨target, htarget⟩ := hbound op m List.mem_cons_self
      have hcode : code.toList = pre ++ ((Sketch.jump op m).raw.encode ++ Sketch.bytes ks) := by
        rw [h]
        simp [Sketch.bytes]
      rw [Sketch.pendingFrom, Jumps.patchAll] at hp
      cases hpatch : j.patch code pre.length m with
      | error f' =>
        rw [hpatch] at hp
        cases hp
        exact ⟨target, patch_sketch_error hk hcode htarget hpatch⟩
      | ok patched =>
        rw [hpatch] at hp
        obtain ⟨hpatched, -⟩ := patch_sketch hk hcode hpatch
        rw [← List.append_assoc] at hpatched
        rw [show pre.length + op.size
          = (pre ++ ((Sketch.jump op m).linked j).encode).length from hsize.symm] at hp
        exact ih hks _ hpatched hrest hp

/-- Completing jumps to bound targets depends on where these lie only. -/
lemma patchAll_congr {j' : Jumps} (hpos : ∀ m, j'.position? m = j.position? m)
    {ps : List (Nat × Mark)} (hbound : ∀ p ∈ ps, ∃ target, j.position? p.2 = some target)
    (code : Bytes) : j'.patchAll ps code = j.patchAll ps code := by
  have htarget : ∀ {j : Jumps} {m : Mark} {target : Nat}, j.position? m = some target →
      ∃ name, j.targets[m.index]? = some ⟨name, some target⟩ := by
    intro j m target h
    unfold position? at h
    cases ht : j.targets[m.index]? with
    | none =>
      rw [ht] at h
      cases h
    | some t =>
      rw [ht, Option.bind_some] at h
      obtain ⟨name, position⟩ := t
      cases h
      exact ⟨name, rfl⟩
  induction ps generalizing code with
  | nil => rfl
  | cons p ps ih =>
    obtain ⟨offset, m⟩ := p
    obtain ⟨target, ht⟩ := hbound _ List.mem_cons_self
    obtain ⟨name, hm⟩ := htarget ht
    obtain ⟨name', hm'⟩ := htarget ((hpos m).trans ht)
    have hpatch : j'.patch code offset m = j.patch code offset m := by
      unfold patch
      rw [hm, hm']
    rw [patchAll, patchAll, hpatch]
    cases j.patch code offset m with
    | ok code => exact ih (fun p hp => hbound p (List.mem_cons_of_mem _ hp)) code
    | error f => rfl

end Jumps

end CallByNeed
