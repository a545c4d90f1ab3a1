import CallByNeed.Proofs.Discipline.Form

/-!
# Streams of instructions

Code is written one instruction behind the other, and nothing in it marks where one ends. A reader
that starts at the first byte finds the boundaries by the widths of the operands that it meets
(`Bytes.decode?`). It reads a stream of instructions exactly if their encodings are the code
(`Bytes.decode?_eq_some_iff`), so that neither of the two loses anything. The listing and the
machine go by the same boundaries: `CodeUnit.reads_stream`.
-/

namespace CallByNeed

/-! ## Reading one instruction -/

/-- The kind that a byte stands for is the one that is written as this byte. -/
lemma Opcode.toByte_of_ofByte? {b : UInt8} {op : Opcode} (h : ofByte? b = some op) :
    op.toByte = b := by
  have hall : ∀ n : Fin all.size, all[n].toByte = UInt8.ofNat n := by decide
  obtain ⟨hlt, rfl⟩ := Array.getElem?_eq_some_iff.1 h
  exact (hall ⟨b.toNat, hlt⟩).trans (by simp)

namespace Bytes

variable {code : Bytes} {p : Nat} {i : Instruction}

/-- A number that is read is written as the bytes where it was read. -/
lemma drop_of_readNat? {width acc n : Nat} (h : code.readNat? width p acc = some n) :
    ∃ m, m < Nat.pow 256 width ∧ n = acc * Nat.pow 256 width + m ∧
      code.toList.drop p = operandBytes width m ++ code.toList.drop (p + width) := by
  induction width generalizing p acc with
  | zero =>
    rw [readNat?, Option.some.injEq] at h
    exact ⟨0, Nat.one_pos, by simp [← h], rfl⟩
  | succ width ih =>
    rw [readNat?] at h
    split at h
    case h_2 => cases h
    case h_1 b hb =>
      obtain ⟨m, hm, rfl, hdrop⟩ := ih h
      have hpos : 0 < Nat.pow 256 width := Nat.pow_pos (by decide)
      have hsucc : Nat.pow 256 (width + 1) = Nat.pow 256 width * 256 := rfl
      have hbyte : b.toNat < 256 := b.toNat_lt
      have hfirst : code.toList.drop p = b :: code.toList.drop (p + 1) := by
        obtain ⟨hlt, rfl⟩ := Array.getElem?_eq_some_iff.1 hb
        exact List.drop_eq_getElem_cons (by simpa using hlt)
      have hdiv : (b.toNat * Nat.pow 256 width + m) / Nat.pow 256 width = b.toNat := by
        rw [Nat.mul_comm, Nat.mul_add_div hpos, Nat.div_eq_of_lt hm, Nat.add_zero]
      have hmod : (b.toNat * Nat.pow 256 width + m) % Nat.pow 256 width = m := by
        rw [Nat.mul_comm, Nat.mul_add_mod, Nat.mod_eq_of_lt hm]
      refine ⟨b.toNat * Nat.pow 256 width + m, ?_, ?_, ?_⟩
      · calc b.toNat * Nat.pow 256 width + m
            < b.toNat * Nat.pow 256 width + Nat.pow 256 width := Nat.add_lt_add_left hm _
          _ = (b.toNat + 1) * Nat.pow 256 width := (Nat.succ_mul _ _).symm
          _ ≤ 256 * Nat.pow 256 width := Nat.mul_le_mul_right _ hbyte
          _ = Nat.pow 256 (width + 1) := Nat.mul_comm _ _
      · rw [hsucc, Nat.add_mul, Nat.mul_assoc, Nat.mul_comm 256, Nat.add_assoc]
      · rw [operandBytes, hdiv, ← Instruction.operandBytes_mod, hmod, hfirst, hdrop,
          Nat.add_right_comm, Nat.add_assoc]
        simp

/-- Operands that are read fit their widths and are written as the bytes where they were read. -/
lemma drop_of_readOperands? {ws ns : List Nat} (h : code.readOperands? ws p = some ns) :
    List.Forall₂ (fun width n => n < Nat.pow 256 width) ws ns ∧
      code.toList.drop p = ((ws.zip ns).flatMap fun w => operandBytes w.1 w.2) ++
        code.toList.drop (p + ws.foldl (· + ·) 0) := by
  induction ws generalizing p ns with
  | nil =>
    cases h
    exact ⟨.nil, rfl⟩
  | cons w ws ih =>
    rw [readOperands?] at h
    split at h
    case h_2 => cases h
    case h_1 n rest hn hrest =>
      cases h
      obtain ⟨m, hm, rfl, hdrop⟩ := drop_of_readNat? hn
      obtain ⟨hfits, hdrops⟩ := ih hrest
      rw [Nat.zero_mul, Nat.zero_add]
      refine ⟨.cons hm hfits, ?_⟩
      rw [hdrop, hdrops, List.zip_cons_cons, List.flatMap_cons, List.foldl_cons,
        foldl_add ws (0 + w), List.append_assoc, Nat.zero_add, Nat.add_assoc]

/-- An instruction that is read fits, and is written as the bytes where it was read. -/
lemma Holds.drop (h : code.Holds p i) :
    i.Fits ∧ code.toList.drop p = i.encode ++ code.toList.drop (p + i.op.size) := by
  obtain ⟨b, hb, hop⟩ := Option.bind_eq_some_iff.1 h.op
  obtain ⟨hlt, rfl⟩ := Array.getElem?_eq_some_iff.1 hb
  obtain ⟨hfits, hdrop⟩ := drop_of_readOperands? h.operands
  refine ⟨hfits, ?_⟩
  rw [Instruction.encode, Opcode.toByte_of_ofByte? hop, List.cons_append, Opcode.size,
    ← Nat.add_assoc, ← hdrop]
  exact List.drop_eq_getElem_cons (by simpa using hlt)

/-- An instruction is read inside the code. -/
lemma Holds.lt_size (h : code.Holds p i) : p < code.size := by
  obtain ⟨b, hb, -⟩ := Option.bind_eq_some_iff.1 h.op
  exact (Array.getElem?_eq_some_iff.1 hb).1

/-! ## Reading one behind the other -/

/-- The instructions from an offset on, up to the end of the code; `none` if a byte stands for no
kind, or an operand runs off the end. -/
def decodeFrom? (code : Bytes) (pos : Nat) : Option (List Instruction) :=
  if _h : pos < code.size then
    match Opcode.ofByte? code[pos] with
    | none => none
    | some op =>
      match code.readOperands? op.widths (pos + 1) with
      | none => none
      | some operands => (code.decodeFrom? (pos + op.size)).map (⟨op, operands⟩ :: ·)
  else if pos = code.size then some [] else none
termination_by code.size - pos
decreasing_by
  have := op.size_pos
  omega

/-- The instructions that a piece of code consists of. -/
def decode? (code : Bytes) : Option (List Instruction) := code.decodeFrom? 0

/-- At the end there is nothing left to read. -/
@[simp] lemma decodeFrom?_size (code : Bytes) : code.decodeFrom? code.size = some [] := by
  rw [decodeFrom?]
  simp

/-- An instruction is read, and then what is behind it. -/
lemma decodeFrom?_of_holds (h : code.Holds p i) :
    code.decodeFrom? p = (code.decodeFrom? (p + i.op.size)).map (i :: ·) := by
  have hop := h.op
  rw [Array.getElem?_eq_getElem h.lt_size, Option.bind_some] at hop
  rw [decodeFrom?, dif_pos h.lt_size]
  simp only [hop, h.operands]

/-- What is read is nothing, at the end, or an instruction and what is behind it. -/
lemma decodeFrom?_cases {is : List Instruction} (h : code.decodeFrom? p = some is) :
    (p = code.size ∧ is = []) ∨ ∃ i rest, is = i :: rest ∧ code.Holds p i ∧
      code.decodeFrom? (p + i.op.size) = some rest := by
  rw [decodeFrom?] at h
  split at h
  case isTrue hlt =>
    split at h
    case h_1 => cases h
    case h_2 op hop =>
      split at h
      case h_1 => cases h
      case h_2 operands hoperands =>
        obtain ⟨rest, hrest, rfl⟩ := Option.map_eq_some_iff.1 h
        refine .inr ⟨⟨op, operands⟩, rest, rfl, ⟨?_, hoperands⟩, hrest⟩
        rw [Array.getElem?_eq_getElem hlt]
        exact hop
  case isFalse hlt =>
    split at h
    case isTrue heq =>
      cases h
      exact .inl ⟨heq, rfl⟩
    case isFalse => cases h

/-- Nothing is read at the end only. -/
lemma eq_size_of_decodeFrom?_nil (h : code.decodeFrom? p = some []) : p = code.size := by
  obtain ⟨hp, -⟩ | ⟨i, rest, hcons, -⟩ := decodeFrom?_cases h
  · exact hp
  · cases hcons

/-- The first instruction that is read is where the reading began. -/
lemma holds_of_decodeFrom?_cons {is : List Instruction}
    (h : code.decodeFrom? p = some (i :: is)) :
    code.Holds p i ∧ code.decodeFrom? (p + i.op.size) = some is := by
  obtain ⟨-, hnil⟩ | ⟨j, rest, hcons, hj, hrest⟩ := decodeFrom?_cases h
  · cases hnil
  · cases hcons
    exact ⟨hj, hrest⟩

/-- What was written one behind the other is read so. -/
lemma decodeFrom?_append {is : List Instruction} (hfit : ∀ i ∈ is, i.Fits) (pre : List UInt8)
    (h : code.toList = pre ++ is.flatMap Instruction.encode) :
    code.decodeFrom? pre.length = some is := by
  induction is generalizing pre with
  | nil =>
    have hsize : pre.length = code.size := by
      rw [← Array.length_toList, h, List.flatMap_nil, List.append_nil]
    rw [hsize, decodeFrom?_size]
  | cons i is ih =>
    have hi : i.Fits := hfit i List.mem_cons_self
    rw [List.flatMap_cons] at h
    have hrest := ih (fun j hj => hfit j (List.mem_cons_of_mem i hj)) (pre ++ i.encode)
      (by rw [h, List.append_assoc])
    rw [List.length_append, hi.length_encode] at hrest
    rw [decodeFrom?_of_holds (holds_of_append _ hi h), hrest, Option.map_some]

/-- What is read one behind the other is written so. -/
lemma drop_of_decodeFrom? {is : List Instruction} (h : code.decodeFrom? p = some is) :
    (∀ i ∈ is, i.Fits) ∧ code.toList.drop p = is.flatMap Instruction.encode := by
  induction is generalizing p with
  | nil =>
    obtain rfl := eq_size_of_decodeFrom?_nil h
    exact ⟨by simp, List.drop_of_length_le (by simp)⟩
  | cons i is ih =>
    obtain ⟨hi, hrest⟩ := holds_of_decodeFrom?_cons h
    obtain ⟨hfit, hdrop⟩ := hi.drop
    obtain ⟨hfits, hdrops⟩ := ih hrest
    exact ⟨List.forall_mem_cons.2 ⟨hfit, hfits⟩, by rw [hdrop, hdrops, List.flatMap_cons]⟩

/-- **Reading and writing a stream of instructions are inverse to each other.** -/
theorem decode?_eq_some_iff {is : List Instruction} : code.decode? = some is ↔
    code.toList = is.flatMap Instruction.encode ∧ ∀ i ∈ is, i.Fits :=
  ⟨fun h => (drop_of_decodeFrom? h).symm, fun h => decodeFrom?_append h.2 [] h.1⟩

end Bytes

/-! ## Where instructions begin -/

namespace Instruction

/-- Instructions with the offsets where they begin if the first one begins at `p`: each as many
bytes behind the one in front of it as the kind of that one takes. -/
def placed : Nat → List Instruction → List (Nat × Instruction)
  | _, [] => []
  | p, i :: is => (p, i) :: placed (p + i.op.size) is

variable {is : List Instruction} {p q : Nat} {i : Instruction}

/-- Offsets go by the bytes that instructions are written as. -/
lemma mem_placed (hfit : ∀ i ∈ is, i.Fits) :
    (q, i) ∈ placed p is ↔ ∃ n, At is n i ∧ q = p + n := by
  induction is generalizing p with
  | nil => simp [placed, At]
  | cons j is ih =>
    have hj : j.encode.length = j.op.size := (hfit j List.mem_cons_self).length_encode
    rw [placed, List.mem_cons, Prod.mk.injEq, ih fun i hi => hfit i (List.mem_cons_of_mem j hi)]
    constructor
    · rintro (⟨rfl, rfl⟩ | ⟨n, ⟨before, after, rfl, rfl⟩, rfl⟩)
      · exact ⟨0, ⟨[], is, rfl, rfl⟩, rfl⟩
      · refine ⟨_, ⟨j :: before, after, rfl, rfl⟩, ?_⟩
        rw [List.flatMap_cons, List.length_append, hj, Nat.add_assoc]
    · rintro ⟨n, ⟨before, after, hsplit, rfl⟩, rfl⟩
      cases before with
      | nil =>
        cases hsplit
        exact .inl ⟨rfl, rfl⟩
      | cons k before =>
        cases hsplit
        refine .inr ⟨_, ⟨before, after, rfl, rfl⟩, ?_⟩
        rw [List.flatMap_cons, List.length_append, hj, Nat.add_assoc]

end Instruction

namespace Bytes

variable {code : Bytes} {p : Nat} {is : List Instruction}

/-- There are at least as many bytes as instructions. -/
lemma length_le_of_decodeFrom? (h : code.decodeFrom? p = some is) : p + is.length ≤ code.size := by
  induction is generalizing p with
  | nil => exact Nat.le_of_eq (eq_size_of_decodeFrom?_nil h)
  | cons i is ih =>
    have hle := ih (holds_of_decodeFrom?_cons h).2
    have hpos := i.op.size_pos
    rw [List.length_cons]
    omega

/-- The listing has one line for each instruction that is read. -/
lemma listingFrom?_of_decodeFrom? (h : code.decodeFrom? p = some is) {fuel : Nat}
    (hfuel : is.length ≤ fuel) (acc : List String) : code.listingFrom? fuel p acc =
      some (acc.reverse ++ (Instruction.placed p is).map fun x => instructionLine x.1 x.2) := by
  induction is generalizing p fuel acc with
  | nil =>
    obtain rfl := eq_size_of_decodeFrom?_nil h
    cases fuel <;> simp [listingFrom?, Instruction.placed]
  | cons i is ih =>
    obtain ⟨hi, hrest⟩ := holds_of_decodeFrom?_cons h
    obtain ⟨b, hb, hop⟩ := Option.bind_eq_some_iff.1 hi.op
    cases fuel with
    | zero => simp at hfuel
    | succ fuel =>
      simp only [listingFrom?, hb, hop, hi.operands]
      rw [ih hrest (by simpa using hfuel), Instruction.placed]
      simp

end Bytes

/-! ## The machine -/

/-- A machine at an instruction finds its kind, and each operand by its width and the widths of the
operands in front of it. -/
lemma Bytes.Holds.machine {u : CodeUnit} {i : Instruction} {m : Machine}
    (h : u.code.Holds m.position i) :
    u.code[m.position]?.bind Opcode.ofByte? = some i.op ∧
      ∀ k width n, i.op.widths[k]? = some width → i.operands[k]? = some n → ∀ s,
        Machine.operand u width ((i.op.widths.take k).foldl (· + ·) 0) m s = .ok (n, m) s := by
  refine ⟨h.op, fun k width n hwidth hn s => ?_⟩
  have hread := Bytes.readNat?_of_readOperands? h.operands hwidth hn
  rw [Machine.operand_read, Bytes.operand?, hread]
  rfl

/-- **A stream of instructions is read as it was written.** Reading the code of a unit from its
first byte to its last one gives instructions exactly if their encodings, one behind the other, are
the code, and each of them has the operands of its kind, within the range of their widths. Then the
listing has one line for each of them, and the machine goes from one to the next by their sizes and
finds their kinds and operands. Any native integer can be an operand. -/
theorem CodeUnit.reads_stream (u : CodeUnit) (is : List Instruction) :
    (u.code.decode? = some is ↔
      u.code.toList = is.flatMap Instruction.encode ∧ ∀ i ∈ is, i.Fits) ∧
    (u.code.decode? = some is →
      u.code.listing? = some ((Instruction.placed 0 is).map fun x => instructionLine x.1 x.2) ∧
      (∀ p i, (p, i) ∈ Instruction.placed 0 is ↔ Instruction.At is p i) ∧
      ∀ (m : Machine) (i : Instruction), (m.position, i) ∈ Instruction.placed 0 is →
        u.code[m.position]?.bind Opcode.ofByte? = some i.op ∧
        ∀ k width n, i.op.widths[k]? = some width → i.operands[k]? = some n → ∀ s,
          Machine.operand u width ((i.op.widths.take k).foldl (· + ·) 0) m s = .ok (n, m) s) ∧
    ∀ n : Int32, Instruction.Fits ⟨.int, [intOperand n]⟩ ∧ intOfOperand (intOperand n) = n := by
  refine ⟨Bytes.decode?_eq_some_iff, fun h => ?_,
    fun n => ⟨Instruction.fits_int n, intOfOperand_intOperand n⟩⟩
  obtain ⟨hcode, hfit⟩ := Bytes.decode?_eq_some_iff.1 h
  have hat : ∀ p i, (p, i) ∈ Instruction.placed 0 is ↔ Instruction.At is p i := by
    intro p i
    simp [Instruction.mem_placed hfit]
  have hlength := Bytes.length_le_of_decodeFrom? h
  refine ⟨Bytes.listingFrom?_of_decodeFrom? h (by omega) [], hat, fun m i hi => ?_⟩
  have hholds := (hat m.position i).1 hi
  exact (hholds.holds hcode (hfit i hholds.mem)).machine

/-- Two names of an array, a negative integer, and the return behind them. -/
def signedStream : List Instruction := [⟨.nameAt, [1, 258]⟩, ⟨.int, [intOperand (-2)]⟩, ⟨.ret, []⟩]

/-- It is read back and listed. -/
theorem CodeUnit.reads_stream_signed :
    let u : CodeUnit := ⟨"test", #[33, 0, 1, 1, 2, 1, 255, 255, 255, 254, 48], #[], 3, [], []⟩
    u.code.decode? = some signedStream ∧
      u.code.listing? = some ["0000 OpNameAt 1 258", "0005 OpInt -2", "0010 OpReturn"] := by
  intro u
  have hfit : ∀ i ∈ signedStream, i.Fits := by
    refine List.forall_mem_cons.2 ⟨Instruction.fits_pair rfl (by decide) (by decide),
      List.forall_mem_cons.2 ⟨Instruction.fits_int _, List.forall_mem_singleton.2 ?_⟩⟩
    exact Instruction.fits_nil rfl
  have hdecode : u.code.decode? = some signedStream :=
    (CodeUnit.reads_stream u signedStream).1.2 ⟨by decide, hfit⟩
  refine ⟨hdecode, ?_⟩
  rw [((CodeUnit.reads_stream u signedStream).2.1 hdecode).1]
  decide

end CallByNeed
