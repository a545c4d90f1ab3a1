import CallByNeed.Code.Opcode

/-!
# Instruction bytes

An instruction is its opcode's byte and its operands, most significant byte first. Writing cuts an
operand to its width; reading may run off the end of the code, which the readers report as `none`.
-/

namespace CallByNeed

/-- The bytes of a piece of code. -/
abbrev Bytes := Array UInt8

/-- An instruction: its kind and its operands. -/
structure Instruction where
  op : Opcode
  operands : List Nat
deriving DecidableEq

/-! ## Writing -/

/-- The lowest `width` bytes of a number, most significant first. -/
def operandBytes : Nat → Nat → List UInt8
  | 0, _ => []
  | width + 1, n => UInt8.ofNat (n / Nat.pow 256 width) :: operandBytes width n

/-- The operand that stands for a native integer: its two's complement. -/
def intOperand (n : Int32) : Nat := n.toUInt32.toNat

/-- The native integer that an operand stands for. -/
def intOfOperand (n : Nat) : Int32 := (UInt32.ofNat n).toInt32

/-- The bytes of an instruction. Operands beyond those of the kind are left out, and missing ones
are not made up for. -/
def Instruction.encode (i : Instruction) : List UInt8 :=
  i.op.toByte :: (i.op.widths.zip i.operands).flatMap fun w => operandBytes w.1 w.2

/-! ## Reading -/

namespace Bytes

/-- The number in `width` bytes from an offset on, appended to `acc`. -/
def readNat? (code : Bytes) : Nat → Nat → Nat → Option Nat
  | 0, _, acc => some acc
  | width + 1, pos, acc =>
    match code[pos]? with
    | some b => readNat? code width (pos + 1) (acc * 256 + b.toNat)
    | none => none

/-- The operands of the given widths from an offset on. -/
def readOperands? (code : Bytes) : List Nat → Nat → Option (List Nat)
  | [], _ => some []
  | width :: widths, pos =>
    match readNat? code width pos 0, readOperands? code widths (pos + width) with
    | some n, some rest => some (n :: rest)
    | _, _ => none

/-- One operand of the instruction at an offset, by its place behind the opcode. -/
def operand? (code : Bytes) (pos width skip : Nat) : Option Nat :=
  readNat? code width (pos + 1 + skip) 0

/-- Writes bytes over those from an offset on; `none` if they do not all fit. -/
def overwrite? (code : Bytes) (pos : Nat) : List UInt8 → Option Bytes
  | [] => some code
  | b :: rest =>
    if pos < code.size then overwrite? (code.setIfInBounds pos b) (pos + 1) rest else none

/-- Appends an instruction. -/
def append (code : Bytes) (i : Instruction) : Bytes := i.encode.foldl Array.push code

end Bytes

/-! ## Listing -/

/-- A number in at least four digits. -/
def fourDigits (n : Nat) : String :=
  let digits := toString n
  String.ofList (List.replicate (4 - digits.length) '0') ++ digits

/-- The text of an operand. -/
def operandText (op : Opcode) (n : Nat) : String :=
  if op = .int then toString (intOfOperand n).toInt else toString n

/-- A line of a listing. -/
def instructionLine (pos : Nat) (i : Instruction) : String :=
  " ".intercalate (fourDigits pos :: i.op.name :: i.operands.map (operandText i.op))

namespace Bytes

/-- The lines of a listing from an offset on, behind those already made, which are kept last one
first; `none` if an operand runs off the end. A byte that stands for no kind has a line of its own.
`fuel` bounds the number of lines. -/
def listingFrom? (code : Bytes) : Nat → Nat → List String → Option (List String)
  | 0, _, acc => some acc.reverse
  | fuel + 1, pos, acc =>
    match code[pos]? with
    | none => some acc.reverse
    | some b =>
      match Opcode.ofByte? b with
      | none =>
        listingFrom? code fuel (pos + 1) (s!"{fourDigits pos} <bad opcode {b.toNat}>" :: acc)
      | some op =>
        match readOperands? code op.widths (pos + 1) with
        | none => none
        | some operands =>
          listingFrom? code fuel (pos + op.size) (instructionLine pos ⟨op, operands⟩ :: acc)

/-- The listing of a piece of code, one line per instruction. -/
def listing? (code : Bytes) : Option (List String) := code.listingFrom? code.size 0 []

end Bytes

end CallByNeed
