import CallByNeed.Proofs.Code.Streams

/-!
# What completing jumps changes

A table of jump targets is applied to code that consists of instructions one behind the other. The
jumps to complete may be noted in any order, only some of them, and more than once. Completing them
writes the operands of these jumps and no other byte, so that every instruction stays where it is
(`Jumps.Completed`), and it fails only for a target that is not bound, or is bound too far away
(`Jumps.apply_completes`).

Each step of the way looks at bytes that earlier steps may have written. It finds a jump there all
the same, because what has been written so far is again code that consists of instructions, which
begin at the same offsets.
-/

namespace CallByNeed

/-! ## One instruction in the place of another -/

namespace Instruction

variable {is before after : List Instruction} {i j x : Instruction} {p q : Nat}

/-- Every instruction takes a byte at least. -/
lemma length_encode_pos (i : Instruction) : 0 < i.encode.length := Nat.succ_pos _

/-- Where instructions begin: the first one at once, the others behind it. -/
lemma at_cons :
    At (i :: is) p x ↔ (p = 0 ∧ x = i) ∨ ∃ q, At is q x ∧ p = i.encode.length + q := by
  constructor
  · rintro ⟨before, after, hsplit, rfl⟩
    cases before with
    | nil =>
      cases hsplit
      exact .inl ⟨rfl, rfl⟩
    | cons k before =>
      cases hsplit
      exact .inr ⟨_, ⟨before, after, rfl, rfl⟩, by simp⟩
  · rintro (⟨rfl, rfl⟩ | ⟨q, ⟨before, after, rfl, rfl⟩, rfl⟩)
    · exact ⟨[], is, rfl, rfl⟩
    · exact ⟨i :: before, after, rfl, by simp⟩

/-- One instruction begins at an offset. -/
lemma At.unique (hi : At is p i) (hj : At is p j) : i = j := by
  induction is generalizing p with
  | nil =>
    obtain ⟨before, after, hnil, -⟩ := hi
    simp at hnil
  | cons k is ih =>
    have hpos := k.length_encode_pos
    rcases at_cons.1 hi with ⟨hp, rfl⟩ | ⟨q, hq, hp⟩
    · rcases at_cons.1 hj with ⟨-, rfl⟩ | ⟨q', -, hp'⟩
      · rfl
      · omega
    · rcases at_cons.1 hj with ⟨hp', -⟩ | ⟨q', hq', hp'⟩
      · omega
      · obtain rfl : q = q' := by omega
        exact ih hq hq'

/-- An instruction in the place of one of the same length begins where that one did, and all others
stay where they are. -/
lemma at_replace (hlength : j.encode.length = i.encode.length) :
    At (before ++ j :: after) q x ↔ (q = (before.flatMap encode).length ∧ x = j) ∨
      (q ≠ (before.flatMap encode).length ∧ At (before ++ i :: after) q x) := by
  induction before generalizing q with
  | nil =>
    have hpos := i.length_encode_pos
    show At (j :: after) q x ↔ (q = 0 ∧ x = j) ∨ (q ≠ 0 ∧ At (i :: after) q x)
    rw [at_cons, at_cons, hlength]
    constructor
    · rintro (h | ⟨r, hr, rfl⟩)
      · exact .inl h
      · exact .inr ⟨by omega, .inr ⟨r, hr, rfl⟩⟩
    · rintro (h | ⟨hq, ⟨hzero, -⟩ | h⟩)
      · exact .inl h
      · exact absurd hzero hq
      · exact .inr h
  | cons k before ih =>
    have hpos := k.length_encode_pos
    rw [List.cons_append, List.cons_append, at_cons, at_cons, List.flatMap_cons, List.length_append]
    constructor
    · rintro (⟨rfl, rfl⟩ | ⟨r, hr, rfl⟩)
      · exact .inr ⟨by omega, .inl ⟨rfl, rfl⟩⟩
      · rcases ih.1 hr with ⟨rfl, rfl⟩ | ⟨hne, hr⟩
        · exact .inl ⟨rfl, rfl⟩
        · exact .inr ⟨by omega, .inr ⟨r, hr, rfl⟩⟩
    · rintro (⟨rfl, rfl⟩ | ⟨hne, ⟨rfl, rfl⟩ | ⟨r, hr, rfl⟩⟩)
      · exact .inr ⟨_, ih.2 (.inl ⟨rfl, rfl⟩), rfl⟩
      · exact .inl ⟨rfl, rfl⟩
      · exact .inr ⟨r, ih.2 (.inr ⟨by omega, hr⟩), rfl⟩

/-- An instruction that is a jump and has the operand that says where it goes. -/
def IsJump (i : Instruction) : Prop := i.op.isJump = true ∧ i.operands ≠ []

/-- A jump takes three bytes: its kind, and two for where it goes. -/
lemma IsJump.length_encode (h : i.IsJump) : i.encode.length = 3 := by
  obtain ⟨op, ns⟩ := i
  obtain ⟨hop, hns⟩ := h
  cases ns with
  | nil => exact absurd rfl hns
  | cons n ns =>
    have hw : op.widths = [2] := Opcode.widths_of_isJump hop
    simp [encode, hw]

/-- The jump that goes to a position. -/
def aimedAt (i : Instruction) (target : Nat) : Instruction := ⟨i.op, [target]⟩

/-- A jump is a jump wherever it goes. -/
lemma IsJump.aimedAt (h : i.IsJump) (target : Nat) : (i.aimedAt target).IsJump :=
  ⟨h.1, List.cons_ne_nil _ _⟩

/-- A jump that goes to a position that two bytes hold can be read back. -/
lemma IsJump.fits_aimedAt (h : i.IsJump) {target : Nat} (hlt : target < UInt16.size) :
    (i.aimedAt target).Fits := by
  have hw : i.op.widths = [2] := Opcode.widths_of_isJump h.1
  show List.Forall₂ _ i.op.widths [target]
  rw [hw]
  exact .cons hlt .nil

end Instruction

/-! ## Bytes that are written over -/

/-- Writing bytes over others leaves the length of the code and everything beside them alone. -/
lemma Bytes.getElem?_of_overwrite? {code code' : Bytes} {p : Nat} {bs : List UInt8}
    (h : code.overwrite? p bs = some code') :
    code'.size = code.size ∧ (∀ q, q < p ∨ p + bs.length ≤ q → code'[q]? = code[q]?) ∧
      ∀ k < bs.length, code'[p + k]? = bs[k]? := by
  induction bs generalizing code p with
  | nil =>
    cases h
    exact ⟨rfl, fun _ _ => rfl, nofun⟩
  | cons b bs ih =>
    rw [Bytes.overwrite?] at h
    split at h
    case isFalse => cases h
    case isTrue hp =>
      obtain ⟨hsize, hbeside, hwritten⟩ := ih h
      rw [Array.size_setIfInBounds] at hsize
      refine ⟨hsize, fun q hq => ?_, fun k hk => ?_⟩
      · rw [List.length_cons] at hq
        rw [hbeside q (by omega), Array.getElem?_setIfInBounds_ne (by omega)]
      · cases k with
        | zero =>
          rw [Nat.add_zero, hbeside p (.inl (Nat.lt_succ_self p)),
            Array.getElem?_setIfInBounds_self_of_lt hp]
          rfl
        | succ k =>
          rw [show p + (k + 1) = p + 1 + k by omega, hwritten k (by simpa using hk)]
          rfl

namespace Jumps

variable {j : Jumps} {code code' : Bytes} {p : Nat} {m : Mark}

/-! ## Completing one jump -/

/-- What is wrong with a target that jumps cannot go to: it is not in the table, it is not bound, or
it is bound where two bytes do not reach. -/
def refusal? (j : Jumps) (m : Mark) : Option CompileError :=
  match j.targets[m.index]? with
  | none => some (.defect .foreignLabel)
  | some t =>
    match t.position with
    | none => some (.unboundLabel t.name)
    | some target =>
      if target ≥ UInt16.size then some (.defect (.jumpTargetOutOfRange target)) else none

/-- Nothing is wrong with a target that is bound within reach. -/
lemma refusal?_eq_none :
    j.refusal? m = none ↔ ∃ target, j.position? m = some target ∧ target < UInt16.size := by
  unfold refusal? position?
  cases j.targets[m.index]? with
  | none => simp
  | some t =>
    obtain ⟨name, _ | target⟩ := t
    · simp
    · simp

/-- Something is wrong with a target that is not bound, or is bound too far away. -/
lemma exists_refusal?_iff : (∃ e, j.refusal? m = some e) ↔
    j.position? m = none ∨ ∃ target, j.position? m = some target ∧ UInt16.size ≤ target := by
  rw [← Option.ne_none_iff_exists', Ne, refusal?_eq_none]
  cases j.position? m with
  | none => simp
  | some target => simp

/-- Completing one jump replaces it, or fails for what is wrong with its target. -/
lemma patch_of_isJump {before after : List Instruction} {i : Instruction}
    (hcode : code.toList = (before ++ i :: after).flatMap Instruction.encode) (hi : i.IsJump) :
    (∀ e, j.refusal? m = some e →
      j.patch code (before.flatMap Instruction.encode).length m = .error (.error e)) ∧
    ∀ target, j.position? m = some target → target < UInt16.size →
      ∃ code', j.patch code (before.flatMap Instruction.encode).length m = .ok code' ∧
        code'.toList = (before ++ i.aimedAt target :: after).flatMap Instruction.encode := by
  rw [List.flatMap_append, List.flatMap_cons] at hcode
  have hop : code[(before.flatMap Instruction.encode).length]?.bind Opcode.ofByte? = some i.op := by
    rw [← Array.getElem?_toList, hcode, List.getElem?_append_right (Nat.le_refl _), Nat.sub_self]
    exact Opcode.ofByte?_toByte i.op
  unfold refusal? position? patch
  cases j.targets[m.index]? with
  | none => simp
  | some t =>
    obtain ⟨name, _ | bound⟩ := t
    · simp
    · by_cases hfar : bound ≥ UInt16.size
      · simp only [if_pos hfar, Option.bind_some, Option.some.injEq]
        refine ⟨fun e he => by rw [he], fun target htarget hlt => ?_⟩
        omega
      · have hlength : i.encode.length = (i.aimedAt bound).encode.length := by
          rw [hi.length_encode, (hi.aimedAt bound).length_encode]
        obtain ⟨code', hwritten, hcode'⟩ := Bytes.overwrite?_append hcode hlength
        refine ⟨fun e he => by simp [hfar] at he, fun target htarget _ => ?_⟩
        obtain rfl : bound = target := Option.some.inj htarget
        refine ⟨code', ?_, ?_⟩
        · have hwritten : code.overwrite? _ (Instruction.encode ⟨i.op, [bound]⟩) = some code' :=
            hwritten
          simp only [if_neg hfar, hop, if_pos hi.1, hwritten]
        · rw [hcode', List.flatMap_append, List.flatMap_cons]

/-- Completing one jump writes the two bytes behind its kind and no other one. -/
lemma patch_frame (h : j.patch code p m = .ok code') :
    code'.size = code.size ∧ ∀ q, q ≠ p + 1 → q ≠ p + 2 → code'[q]? = code[q]? := by
  unfold patch at h
  split at h
  case h_1 => cases h
  split at h
  case h_1 => cases h
  rename_i target _
  split at h
  case isTrue => cases h
  split at h
  case h_1 => cases h
  case h_2 op hop =>
    split at h
    case isFalse => cases h
    case isTrue hjump =>
      split at h
      case h_2 => cases h
      case h_1 written hwritten =>
        cases h
        have hi : Instruction.IsJump ⟨op, [target]⟩ := ⟨hjump, List.cons_ne_nil _ _⟩
        obtain ⟨hsize, hbeside, hbytes⟩ := Bytes.getElem?_of_overwrite? hwritten
        rw [hi.length_encode] at hbeside hbytes
        refine ⟨hsize, fun q hone htwo => ?_⟩
        by_cases hq : q = p
        · -- The kind is written again, over the byte that it was read from.
          subst hq
          obtain ⟨b, hb, hop⟩ := Option.bind_eq_some_iff.1 hop
          rw [hb, ← Opcode.toByte_of_ofByte? hop]
          exact hbytes 0 (by decide)
        · exact hbeside q (by omega)

/-! ## Completing several -/

/-- Completing jumps, as far as it goes, writes the bytes behind their kinds and no other one. -/
lemma patchAll_frame (ps : List (Nat × Mark)) (code : Bytes) :
    (j.patchAll ps code).1.size = code.size ∧
      ∀ q, (∀ x ∈ ps, q ≠ x.1 + 1 ∧ q ≠ x.1 + 2) → (j.patchAll ps code).1[q]? = code[q]? := by
  induction ps generalizing code with
  | nil => exact ⟨rfl, fun _ _ => rfl⟩
  | cons x ps ih =>
    obtain ⟨p, m⟩ := x
    rw [patchAll]
    cases hpatch : j.patch code p m with
    | error f => exact ⟨rfl, fun _ _ => rfl⟩
    | ok code' =>
      obtain ⟨hsize, hsame⟩ := patch_frame hpatch
      obtain ⟨hsizes, hsames⟩ := ih code'
      refine ⟨hsizes.trans hsize, fun q hq => ?_⟩
      obtain ⟨hone, htwo⟩ := hq _ List.mem_cons_self
      exact (hsames q fun x hx => hq x (List.mem_cons_of_mem _ hx)).trans (hsame q hone htwo)

/-- The instruction at an offset once jumps are completed: if it is noted, it goes where the target
noted with it is bound. -/
def completed (j : Jumps) (ps : List (Nat × Mark)) (p : Nat) (i : Instruction) : Instruction :=
  match ps.lookup p with
  | some m => i.aimedAt ((j.position? m).getD 0)
  | none => i

/-- Completing the jump of one note and then those of others. -/
lemma completed_cons {ps : List (Nat × Mark)} {q target : Nat} {i : Instruction}
    (htarget : j.position? m = some target)
    (hsame : ∀ x ∈ (p, m) :: ps, ∀ y ∈ (p, m) :: ps, x.1 = y.1 → x.2 = y.2) :
    j.completed ((p, m) :: ps) q i = j.completed ps q (if q = p then i.aimedAt target else i) := by
  unfold completed
  rw [List.lookup_cons]
  by_cases hq : q = p
  · subst hq
    rw [beq_self_eq_true, if_pos rfl]
    cases hlookup : ps.lookup q with
    | none => simp [htarget]
    | some m' =>
      obtain ⟨before, after, rfl, -⟩ := List.lookup_eq_some_iff.1 hlookup
      obtain rfl : m = m' := hsame (q, m) (by simp) (q, m') (by simp) rfl
      rfl
  · rw [if_neg hq, beq_false_of_ne hq]

/-- A noted jump goes where the target noted with it is bound. -/
lemma completed_noted {ps : List (Nat × Mark)}
    (hsame : ∀ x ∈ ps, ∀ y ∈ ps, x.1 = y.1 → x.2 = y.2) {x : Nat × Mark} (hx : x ∈ ps)
    {target : Nat} (htarget : j.position? x.2 = some target) (i : Instruction) :
    j.completed ps x.1 i = i.aimedAt target := by
  unfold completed
  cases hlookup : ps.lookup x.1 with
  | none =>
    have hne := List.lookup_eq_none_iff.1 hlookup x hx
    simp at hne
  | some m =>
    obtain ⟨before, after, rfl, -⟩ := List.lookup_eq_some_iff.1 hlookup
    have hm : m = x.2 := hsame (x.1, m) (by simp) x hx rfl
    simp [hm, htarget]

/-- An instruction that is not noted is left alone. -/
lemma completed_other {ps : List (Nat × Mark)} (hp : ∀ x ∈ ps, x.1 ≠ p) (i : Instruction) :
    j.completed ps p i = i := by
  have hlookup : ps.lookup p = none :=
    List.lookup_eq_none_iff.2 fun x hx => bne_iff_ne.2 (hp x hx).symm
  unfold completed
  rw [hlookup]

/-- Completing noted jumps fails for what is wrong with the first target that jumps cannot go to. If
there is none, all noted jumps are completed and every instruction is where it was. -/
lemma patchAll_of_jumps {is : List Instruction} {ps : List (Nat × Mark)}
    (hcode : code.toList = is.flatMap Instruction.encode)
    (hjumps : ∀ x ∈ ps, ∃ i, Instruction.At is x.1 i ∧ i.IsJump)
    (hsame : ∀ x ∈ ps, ∀ y ∈ ps, x.1 = y.1 → x.2 = y.2) :
    (j.patchAll ps code).2 = (ps.findSome? fun x => j.refusal? x.2).map .error ∧
      ((j.patchAll ps code).2 = none → ∃ is' : List Instruction,
        (j.patchAll ps code).1.toList = is'.flatMap Instruction.encode ∧
        ∀ q y, Instruction.At is' q y ↔
          ∃ i, Instruction.At is q i ∧ y = j.completed ps q i) := by
  induction ps generalizing is code with
  | nil => exact ⟨rfl, fun _ => ⟨is, hcode, fun q y => by simp [completed]⟩⟩
  | cons x ps ih =>
    obtain ⟨p, m⟩ := x
    obtain ⟨i, ⟨before, after, rfl, hp⟩, hi⟩ := hjumps _ List.mem_cons_self
    dsimp only at hp
    subst hp
    obtain ⟨hrefused, hwritten⟩ := patch_of_isJump (j := j) (m := m) hcode hi
    rw [patchAll, List.findSome?_cons]
    cases hm : j.refusal? m with
    | some e =>
      rw [hrefused e hm]
      exact ⟨rfl, fun h => by cases h⟩
    | none =>
      obtain ⟨target, htarget, hlt⟩ := refusal?_eq_none.1 hm
      obtain ⟨code', hpatch, hcode'⟩ := hwritten target htarget hlt
      have hlength : (i.aimedAt target).encode.length = i.encode.length := by
        rw [hi.length_encode, (hi.aimedAt target).length_encode]
      have hreplace := fun q x => @Instruction.at_replace before after i _ x q hlength
      rw [hpatch]
      have hjumps' : ∀ x ∈ ps, ∃ k,
          Instruction.At (before ++ i.aimedAt target :: after) x.1 k ∧ k.IsJump := by
        intro x hx
        obtain ⟨k, hk, hjump⟩ := hjumps x (List.mem_cons_of_mem _ hx)
        by_cases hq : x.1 = (before.flatMap Instruction.encode).length
        · exact ⟨_, (hreplace _ _).2 (.inl ⟨hq, rfl⟩), hi.aimedAt target⟩
        · exact ⟨k, (hreplace _ _).2 (.inr ⟨hq, hk⟩), hjump⟩
      obtain ⟨hend, hdone⟩ := ih hcode' hjumps' fun x hx y hy =>
        hsame x (List.mem_cons_of_mem _ hx) y (List.mem_cons_of_mem _ hy)
      refine ⟨hend, fun hnone => ?_⟩
      obtain ⟨is', his', hat⟩ := hdone hnone
      refine ⟨is', his', fun q y => (hat q y).trans ?_⟩
      simp only [completed_cons htarget hsame]
      by_cases hq : q = (before.flatMap Instruction.encode).length
      · have hold : Instruction.At (before ++ i :: after) q i := ⟨before, after, rfl, hq⟩
        constructor
        · rintro ⟨k, hk, rfl⟩
          obtain ⟨-, rfl⟩ | ⟨hne, -⟩ := (hreplace q k).1 hk
          · exact ⟨i, hold, by rw [if_pos hq]⟩
          · exact absurd hq hne
        · rintro ⟨k, hk, rfl⟩
          obtain rfl := hold.unique hk
          rw [if_pos hq]
          exact ⟨_, (hreplace q _).2 (.inl ⟨hq, rfl⟩), rfl⟩
      · simp only [if_neg hq]
        constructor
        · rintro ⟨k, hk, rfl⟩
          obtain ⟨heq, -⟩ | ⟨-, hk⟩ := (hreplace q k).1 hk
          · exact absurd heq hq
          · exact ⟨k, hk, rfl⟩
        · rintro ⟨k, hk, rfl⟩
          exact ⟨k, (hreplace q k).2 (.inr ⟨hq, hk⟩), rfl⟩

/-! ## Completing all of a table -/

/-- What becomes of code that consists of instructions when its noted jumps are completed. -/
structure Completed (j : Jumps) (is is' : List Instruction) (code code' : Bytes) : Prop where
  size : code'.size = code.size
  stream : code'.toList = is'.flatMap Instruction.encode
  boundaries : ∀ p, (∃ i, Instruction.At is' p i) ↔ ∃ i, Instruction.At is p i
  /-- A noted jump keeps its kind, and goes where its target is bound; so it is read. -/
  jumps : ∀ x ∈ j.pending, ∃ i target, Instruction.At is x.1 i ∧ j.position? x.2 = some target ∧
    Instruction.At is' x.1 ⟨i.op, [target]⟩ ∧ code'.Holds x.1 ⟨i.op, [target]⟩
  others : ∀ p i, Instruction.At is p i → (∀ x ∈ j.pending, x.1 ≠ p) → Instruction.At is' p i
  /-- No byte is written but those of the operands of noted jumps. -/
  bytes : ∀ q, (∀ x ∈ j.pending, q ≠ x.1 + 1 ∧ q ≠ x.1 + 2) → code'[q]? = code[q]?
  /-- If the instructions can be read one behind the other, so can those that they become. -/
  reads : code.decode? = some is → code'.decode? = some is'

/-- When no target is refused, completing all jumps gives what is to become of the code. -/
lemma exists_completed {is : List Instruction} (hcode : code.toList = is.flatMap Instruction.encode)
    (hjumps : ∀ x ∈ j.pending.toList, ∃ i, Instruction.At is x.1 i ∧ i.IsJump)
    (hsame : ∀ x ∈ j.pending.toList, ∀ y ∈ j.pending.toList, x.1 = y.1 → x.2 = y.2)
    (hnone : (j.apply code).2 = none) : ∃ is', j.Completed is is' code (j.apply code).1 := by
  obtain ⟨hend, hdone⟩ := patchAll_of_jumps hcode hjumps hsame
  obtain ⟨hsize, hbytes⟩ := patchAll_frame (j := j) j.pending.toList code
  obtain ⟨is', his', hat⟩ := hdone hnone
  have hnone' := hend.symm.trans hnone
  rw [Option.map_eq_none_iff, List.findSome?_eq_none_iff] at hnone'
  have hplace : ∀ p i, Instruction.At is p i →
      Instruction.At is' p (j.completed j.pending.toList p i) :=
    fun p i hi => (hat p _).2 ⟨i, hi, rfl⟩
  have hjump : ∀ x ∈ j.pending.toList, ∃ i target, Instruction.At is x.1 i ∧
      j.position? x.2 = some target ∧ (i.aimedAt target).Fits ∧
      j.completed j.pending.toList x.1 i = i.aimedAt target := by
    intro x hx
    obtain ⟨i, hi, hjump⟩ := hjumps x hx
    obtain ⟨target, htarget, hlt⟩ := refusal?_eq_none.1 (hnone' x hx)
    exact ⟨i, target, hi, htarget, hjump.fits_aimedAt hlt, completed_noted hsame hx htarget i⟩
  refine ⟨is', {
    size := hsize
    stream := his'
    boundaries := fun p => ⟨fun ⟨y, hy⟩ => ?_, fun ⟨i, hi⟩ => ⟨_, hplace p i hi⟩⟩
    jumps := fun x hx => ?_
    others := fun p i hi hp => ?_
    bytes := fun q hq => hbytes q fun x hx => hq x (Array.mem_toList_iff.1 hx)
    reads := fun hread => Bytes.decode?_eq_some_iff.2 ⟨his', fun y hy => ?_⟩ }⟩
  · obtain ⟨i, hi, -⟩ := (hat p y).1 hy
    exact ⟨i, hi⟩
  · obtain ⟨i, target, hi, htarget, hfits, haimed⟩ := hjump x (Array.mem_toList_iff.2 hx)
    have hat' := hplace x.1 i hi
    rw [haimed] at hat'
    exact ⟨i, target, hi, htarget, hat', hat'.holds his' hfits⟩
  · rw [← completed_other (fun x hx => hp x (Array.mem_toList_iff.1 hx)) i]
    exact hplace p i hi
  · have hfits := (Bytes.decode?_eq_some_iff.1 hread).2
    obtain ⟨before, after, hsplit⟩ := List.append_of_mem hy
    obtain ⟨i, hi, rfl⟩ := (hat _ y).1 ⟨before, after, hsplit, rfl⟩
    by_cases hnoted : ∃ x ∈ j.pending.toList, x.1 = (before.flatMap Instruction.encode).length
    · obtain ⟨x, hx, hp⟩ := hnoted
      obtain ⟨i', target, hi', -, hfit, haimed⟩ := hjump x hx
      rw [hp] at hi' haimed
      obtain rfl := hi'.unique hi
      rw [haimed]
      exact hfit
    · rw [completed_other (fun x hx hp => hnoted ⟨x, hx, hp⟩)]
      exact hfits i hi.mem

/-- **Completing jumps touches nothing but their operands.** Let code consist of instructions, and
let every note of a table be of the offset of a jump among them, in any order and as often as may
be, one target for each offset. Completing the jumps fails exactly if the target of some note is not
bound, or is bound beyond what two bytes hold; then an error is reported, and nothing is written
past the end of the code. Otherwise the code keeps its length and all instructions stay where they
are: noted jumps keep their kinds and go where their targets are bound, all others are as before,
and so is every byte that does not belong to the operand of a noted jump. -/
theorem apply_completes (j : Jumps) (is : List Instruction) (code : Bytes)
    (hcode : code.toList = is.flatMap Instruction.encode)
    (hjumps : ∀ x ∈ j.pending, ∃ i, Instruction.At is x.1 i ∧ i.IsJump)
    (hsame : ∀ x ∈ j.pending, ∀ y ∈ j.pending, x.1 = y.1 → x.2 = y.2) :
    ((j.apply code).2 = none → ∃ is', j.Completed is is' code (j.apply code).1) ∧
      ((∃ e, (j.apply code).2 = some (.error e)) ↔
        ∃ x ∈ j.pending, j.position? x.2 = none ∨
          ∃ target, j.position? x.2 = some target ∧ UInt16.size ≤ target) ∧
      (j.apply code).2 ≠ some .overrun := by
  simp only [← Array.mem_toList_iff, ← exists_refusal?_iff] at hjumps hsame ⊢
  refine ⟨exists_completed hcode hjumps hsame, ?_⟩
  have hend := (patchAll_of_jumps (j := j) hcode hjumps hsame).1
  change (j.apply code).2 = _ at hend
  rw [hend]
  cases hfind : j.pending.toList.findSome? fun x => j.refusal? x.2 with
  | none =>
    refine ⟨⟨nofun, fun ⟨x, hx, e, he⟩ => ?_⟩, nofun⟩
    rw [List.findSome?_eq_none_iff.1 hfind x hx] at he
    cases he
  | some e =>
    obtain ⟨x, hx, he⟩ := List.exists_of_findSome?_eq_some hfind
    exact ⟨⟨fun _ => ⟨x, hx, e, he⟩, fun _ => ⟨e, rfl⟩⟩, nofun⟩

/-- A jump over an instruction and a jump back, the second one noted twice and before the first. -/
def backAndForth : Jumps where
  targets := #[⟨"L0", some 4⟩, ⟨"L1", some 0⟩]
  pending := #[(4, ⟨1⟩), (0, ⟨0⟩), (4, ⟨1⟩)]

/-- Both are completed. -/
theorem apply_completes_repeated :
    let is : List Instruction := [⟨.jump, [9999]⟩, ⟨.pop, []⟩, ⟨.jumpIfZero, [9999]⟩, ⟨.ret, []⟩]
    let code : Bytes := #[9, 39, 15, 8, 10, 39, 15, 48]
    (backAndForth.apply code).1 = #[9, 0, 4, 8, 10, 0, 0, 48] ∧
      ∃ is', backAndForth.Completed is is' code (backAndForth.apply code).1 := by
  intro is code
  refine ⟨by decide,
    (apply_completes backAndForth is code (by decide) ?_ (by decide)).1 (by decide)⟩
  have hfirst : Instruction.At is 0 ⟨.jump, [9999]⟩ := ⟨[], is.tail, rfl, rfl⟩
  have hsecond : Instruction.At is 4 ⟨.jumpIfZero, [9999]⟩ := ⟨is.take 2, is.drop 3, rfl, rfl⟩
  intro x hx
  simp only [backAndForth, List.mem_toArray, List.mem_cons, List.not_mem_nil, or_false] at hx
  obtain rfl | rfl | rfl := hx
  · exact ⟨_, hsecond, rfl, List.cons_ne_nil _ _⟩
  · exact ⟨_, hfirst, rfl, List.cons_ne_nil _ _⟩
  · exact ⟨_, hsecond, rfl, List.cons_ne_nil _ _⟩

end Jumps

end CallByNeed
