import CallByNeed.Code.Slots
import CallByNeed.Code.Unit

/-!
# Units as JSON

Units written by hand. An instruction is a list of its name, or its byte, and its operands; a piece
of code is a list of instructions and bare bytes. A negative operand stands for its two's
complement in 32 bits.
-/

namespace CallByNeed

/-- The number that an operand stands for. -/
def operandOfJson? (j : Json) : Option Nat :=
  j.int?.map fun (i : Int) => if i < 0 then (i + UInt32.size).toNat else i.toNat

/-- The kind of instruction that a name or a byte stands for. -/
def Opcode.ofJson? : Json → Option Opcode
  | .text (some name) => Opcode.ofName? name
  | j => j.nat64?.bind fun n => if n < 256 then Opcode.ofByte? (UInt8.ofNat n) else none

/-- The instruction that a list spells. -/
def Instruction.ofJson? : Json → Option Instruction
  | .array (op :: operands) => do
    let op ← Opcode.ofJson? op
    let operands ← operands.mapM operandOfJson?
    some ⟨op, operands⟩
  | _ => none

/-- The code that a list spells, behind other code. -/
def Bytes.ofJson? (items : List Json) : Option Bytes :=
  items.foldlM (fun code item =>
    match item with
    | .array _ => (Instruction.ofJson? item).map code.append
    | b => b.nat64?.map fun n => code.push (UInt8.ofNat n)) #[]

/-- The constant that an object spells. -/
def Constant.ofJson? (nesting : Nat) : Json → Option Constant
  | .object [(some kind, value)] =>
    match kind with
    | "Literal" => (Expr.ofJson? nesting value).map .literal
    | "Name" => (Symbol.ofJson? value).map .name
    | "Call" => (Call.ofJson? nesting value).map .call
    | "Primitive" => (Symbol.ofJson? value).map .primitive
    | _ => none
  | _ => none

/-- The name of a unit that is given none. -/
def defaultUnitName : String := "test"

mutual

/-- The unit that an object spells, nesting at most so deeply. -/
def CodeUnit.ofJson? : Nat → Json → Option CodeUnit
  | 0, _ => none
  | nesting + 1, j => do
    let code ← Bytes.ofJson? (j.getItems "code")
    let constants ← (j.getItems "constants").mapM (Constant.ofJson? nesting)
    let thunks ← (j.getItems "thunks").mapM (CodeUnit.ofJson? nesting)
    let closures ← (j.getItems "closures").mapM (FunctionOf.ofJson? nesting)
    some
      ⟨(j.getString? "name").getD defaultUnitName, code, constants.toArray,
        (j.getNat? "num_slots").getD firstLocalSlot, thunks, closures⟩

/-- The function literal that an object spells. -/
def FunctionOf.ofJson? : Nat → Json → Option FunctionUnit
  | 0, _ => none
  | nesting + 1, j => do
    let formals ← (j.getItems "formals").mapM (FunctionOf.formalOfJson? nesting)
    let body ← j.get? "body"
    let body ← CodeUnit.ofJson? nesting body
    some ⟨(j.getString? "name").getD defaultUnitName, formals, body⟩

/-- The formal that an object spells. -/
def FunctionOf.formalOfJson? : Nat → Json → Option (Formal CodeUnit)
  | 0, _ => none
  | nesting + 1, j => do
    let name ← j.getString? "name"
    match j.get? "default" with
    | none => some ⟨⟨name⟩, none⟩
    | some default => do
      let unit ← CodeUnit.ofJson? nesting default
      some ⟨⟨name⟩, some unit⟩

end

end CallByNeed
