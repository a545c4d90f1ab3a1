import CallByNeed.Code.Bytes
import Mathlib.Data.List.Forall2

/-!
# Reading instructions back

What is written as an instruction is read back as that instruction, wherever it stands in the code.
`Bytes.Holds code p i` says that a reader at offset `p` finds the instruction `i`: its kind and all
its operands. The main statement, `Bytes.holds_of_append`, gives this for the encoding of an
instruction whose operands fit their widths, whatever comes before and after it.
-/

namespace CallByNeed

/-! ## Widths -/

/-- The instruction has the operands of its kind, each within the range of its width. -/
def Instruction.Fits (i : Instruction) : Prop :=
  List.Forall₂ (fun width n => n < Nat.pow 256 width) i.op.widths i.operands

/-- An operand takes as many bytes as its width says. -/
@[simp] lemma operandBytes_length (width n : Nat) : (operandBytes width n).length = width := by
  induction width with
  | zero => rfl
  | succ width ih => simp [operandBytes, ih]

/-- Adding up widths may start from any number. -/
lemma foldl_add (ws : List Nat) (acc : Nat) :
    ws.foldl (· + ·) acc = acc + ws.foldl (· + ·) 0 := by
  induction ws generalizing acc with
  | nil => rfl
  | cons w ws ih =>
    rw [List.foldl_cons, List.foldl_cons, ih (acc + w), ih (0 + w)]
    omega

/-- As many operands as there are widths take as many bytes as the widths add up to. -/
lemma operands_length {ws ns : List Nat} (h : ns.length = ws.length) :
    ((ws.zip ns).flatMap fun w => operandBytes w.1 w.2).length = ws.foldl (· + ·) 0 := by
  induction ws generalizing ns with
  | nil => rfl
  | cons w ws ih =>
    cases ns with
    | nil => simp at h
    | cons n ns =>
      rw [List.zip_cons_cons, List.flatMap_cons, List.length_append, ih (by simpa using h),
        operandBytes_length, List.foldl_cons, foldl_add ws (0 + w)]
      omega

/-- The instruction has as many operands as its kind wants. -/
def Instruction.Shaped (i : Instruction) : Prop := i.operands.length = i.op.widths.length

/-- An instruction takes as many bytes as its kind says. -/
lemma Instruction.Shaped.length_encode {i : Instruction} (h : i.Shaped) :
    i.encode.length = i.op.size := by
  rw [Instruction.encode, List.length_cons, operands_length h, Opcode.size]
  omega

/-- Every kind takes at least the byte of its opcode. -/
lemma Opcode.size_pos (op : Opcode) : 0 < op.size := by
  rw [Opcode.size]
  omega

/-! ## Reading -/

namespace Bytes

/-- A reader at an offset finds the instruction: its kind and all its operands. -/
structure Holds (code : Bytes) (p : Nat) (i : Instruction) : Prop where
  op : code[p]?.bind Opcode.ofByte? = some i.op
  operands : code.readOperands? i.op.widths (p + 1) = some i.operands

variable {code : Bytes}

/-- A number is read back from its bytes, up to what its width holds. -/
lemma readNat?_append {pre post : List UInt8} {width n : Nat} (acc : Nat)
    (h : code.toList = pre ++ (operandBytes width n ++ post)) :
    code.readNat? width pre.length acc
      = some (acc * Nat.pow 256 width + n % Nat.pow 256 width) := by
  induction width generalizing pre acc with
  | zero => simp [readNat?, Nat.mod_one]
  | succ width ih =>
    have hb : code[pre.length]? = some (UInt8.ofNat (n / Nat.pow 256 width)) := by
      rw [← Array.getElem?_toList, h, List.getElem?_append_right (Nat.le_refl _), Nat.sub_self]
      rfl
    have hrest : code.toList
        = (pre ++ [UInt8.ofNat (n / Nat.pow 256 width)]) ++ (operandBytes width n ++ post) := by
      rw [h, operandBytes]
      simp
    have hpos : pre.length + 1
        = (pre ++ [UInt8.ofNat (n / Nat.pow 256 width)]).length := by simp
    have hbyte : (UInt8.ofNat (n / Nat.pow 256 width)).toNat = n / Nat.pow 256 width % 256 := by
      simp
    have hmod : n % (Nat.pow 256 width * 256)
        = n % Nat.pow 256 width + Nat.pow 256 width * (n / Nat.pow 256 width % 256) :=
      Nat.mod_mul
    have hsucc : Nat.pow 256 (width + 1) = Nat.pow 256 width * 256 := rfl
    simp only [readNat?, hb]
    rw [hpos, ih _ hrest, hbyte, hsucc, hmod, Nat.add_mul, Nat.mul_assoc,
      Nat.mul_comm 256 (Nat.pow 256 width),
      Nat.mul_comm (n / Nat.pow 256 width % 256) (Nat.pow 256 width)]
    congr 1
    omega

/-- Operands are read back from their bytes, up to what their widths hold. -/
lemma readOperands?_append {ws ns : List Nat} {pre : List UInt8} (post : List UInt8)
    (hlen : ns.length = ws.length)
    (h : code.toList = pre ++ (((ws.zip ns).flatMap fun w => operandBytes w.1 w.2) ++ post)) :
    code.readOperands? ws pre.length
      = some (List.zipWith (fun width n => n % Nat.pow 256 width) ws ns) := by
  induction ws generalizing ns pre with
  | nil => rfl
  | cons w ws ih =>
    cases ns with
    | nil => simp at hlen
    | cons n ns =>
      rw [List.zip_cons_cons, List.flatMap_cons, List.append_assoc] at h
      have hfirst := readNat?_append 0 h
      rw [Nat.zero_mul, Nat.zero_add] at hfirst
      have hpos : pre.length + w = (pre ++ operandBytes w n).length := by simp
      have hrest := ih (by simpa using hlen) (by rw [h, List.append_assoc])
      rw [← hpos] at hrest
      simp only [readOperands?, hfirst, hrest, List.zipWith_cons_cons]

/-- Operands that fit are what their widths hold. -/
lemma zipWith_mod_of_fits {ws ns : List Nat}
    (hfit : List.Forall₂ (fun width n => n < Nat.pow 256 width) ws ns) :
    List.zipWith (fun width n => n % Nat.pow 256 width) ws ns = ns := by
  induction hfit with
  | nil => rfl
  | cons hn _ ih => rw [List.zipWith_cons_cons, Nat.mod_eq_of_lt hn, ih]

/-- The encoding of an instruction is read back, up to what the widths of its operands hold. -/
lemma reads_of_append {pre : List UInt8} (post : List UInt8) {i : Instruction} (hi : i.Shaped)
    (h : code.toList = pre ++ (i.encode ++ post)) :
    code[pre.length]?.bind Opcode.ofByte? = some i.op ∧
      code.readOperands? i.op.widths (pre.length + 1)
        = some (List.zipWith (fun width n => n % Nat.pow 256 width) i.op.widths i.operands) := by
  constructor
  · have hb : code[pre.length]? = some i.op.toByte := by
      rw [← Array.getElem?_toList, h, List.getElem?_append_right (Nat.le_refl _), Nat.sub_self]
      rfl
    rw [hb, Option.bind_some, Opcode.ofByte?_toByte]
  · have hpos : pre.length + 1 = (pre ++ [i.op.toByte]).length := by simp
    rw [hpos]
    refine readOperands?_append post hi ?_
    rw [h, Instruction.encode]
    simp

/-- The encoding of an instruction that fits is read back, wherever it stands. -/
lemma holds_of_append {pre : List UInt8} (post : List UInt8) {i : Instruction} (hfit : i.Fits)
    (h : code.toList = pre ++ (i.encode ++ post)) : code.Holds pre.length i := by
  obtain ⟨hop, hoperands⟩ := reads_of_append post hfit.length_eq.symm h
  rw [zipWith_mod_of_fits hfit] at hoperands
  exact ⟨hop, hoperands⟩

/-- A reader finds one instruction. -/
lemma Holds.unique {p : Nat} {i j : Instruction} (hi : code.Holds p i) (hj : code.Holds p j) :
    i = j := by
  obtain ⟨op, operands⟩ := i
  obtain ⟨op', operands'⟩ := j
  obtain rfl : op = op' := Option.some.inj (hi.op.symm.trans hj.op)
  obtain rfl : operands = operands' := Option.some.inj (hi.operands.symm.trans hj.operands)
  rfl

/-- Several operands can be read one by one: each stands behind those in front of it. -/
lemma readNat?_of_readOperands? {ws ns : List Nat} {p : Nat} (h : code.readOperands? ws p = some ns)
    {k width n : Nat} (hwidth : ws[k]? = some width) (hn : ns[k]? = some n) :
    code.readNat? width (p + (ws.take k).foldl (· + ·) 0) 0 = some n := by
  induction ws generalizing p ns k with
  | nil => cases hwidth
  | cons w ws ih =>
    rw [readOperands?] at h
    split at h
    case h_2 => cases h
    case h_1 first rest hfirst hrest =>
      cases h
      cases k with
      | zero =>
        cases hwidth
        cases hn
        exact hfirst
      | succ k =>
        rw [List.take_succ_cons, List.foldl_cons, foldl_add _ (0 + w), Nat.zero_add,
          ← Nat.add_assoc]
        exact ih hrest hwidth hn

/-- A reader of a single operand finds it. -/
lemma Holds.operand {p width n : Nat} {op : Opcode} (h : code.Holds p ⟨op, [n]⟩)
    (hw : op.widths = [width]) : code.operand? p width 0 = some n := by
  have hfirst : op.widths[0]? = some width := by rw [hw]; rfl
  exact readNat?_of_readOperands? h.operands hfirst rfl

/-- Readers of one of two operands find it. -/
lemma Holds.operand_pair {p width width' n n' : Nat} {op : Opcode}
    (h : code.Holds p ⟨op, [n, n']⟩) (hw : op.widths = [width, width']) :
    code.operand? p width 0 = some n ∧ code.operand? p width' width = some n' := by
  have hfirst : op.widths[0]? = some width := by rw [hw]; rfl
  have hsecond : op.widths[1]? = some width' := by rw [hw]; rfl
  have hread := readNat?_of_readOperands? h.operands hsecond rfl
  rw [hw, List.take_succ_cons, List.take_zero, List.foldl_cons, Nat.zero_add] at hread
  exact ⟨readNat?_of_readOperands? h.operands hfirst rfl, hread⟩

end Bytes

end CallByNeed
