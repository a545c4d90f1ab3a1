/-!
# Operation codes

The instructions of the stack machine by kind. A kind fixes the widths of its operands in bytes:
one byte for slots, two for indexes into tables, counts and jump targets, four for a native integer.
-/

namespace CallByNeed

/-- The kind of an instruction. -/
inductive Opcode where
  | constant | int | load | store | loadInt | storeInt | incLocal | dup | pop
  | jump | jumpIfZero | jumpIfNonZero | jumpIfIntLess
  | findVariable | findFunction | setVariable | force | checkFunction
  | isBuiltin | isClosure | castBuiltin | castClosure | applySpecial
  | newArgList | argAdd | argAddNamed | argAddAll | applyClosure
  | makeVariablePromise | makeThunk | evalThunk | loadEllipsis
  | newNames | nameAt | spliceNames | newValues | valueAt | spliceValues
  | applyBuiltin | callPrimitive | elementAt | length | addInt | greaterEqual
  | makeClosure | truthy | boxInt | unboxInt | ret
deriving DecidableEq

namespace Opcode

/-- All kinds, in the order of their bytes. -/
def all : Array Opcode :=
  #[.constant, .int, .load, .store, .loadInt, .storeInt, .incLocal, .dup, .pop,
    .jump, .jumpIfZero, .jumpIfNonZero, .jumpIfIntLess,
    .findVariable, .findFunction, .setVariable, .force, .checkFunction,
    .isBuiltin, .isClosure, .castBuiltin, .castClosure, .applySpecial,
    .newArgList, .argAdd, .argAddNamed, .argAddAll, .applyClosure,
    .makeVariablePromise, .makeThunk, .evalThunk, .loadEllipsis,
    .newNames, .nameAt, .spliceNames, .newValues, .valueAt, .spliceValues,
    .applyBuiltin, .callPrimitive, .elementAt, .length, .addInt, .greaterEqual,
    .makeClosure, .truthy, .boxInt, .unboxInt, .ret]

/-- The byte of a kind: its place in `all`. -/
def toByte (op : Opcode) : UInt8 := UInt8.ofNat op.ctorIdx

/-- The kind that a byte stands for. -/
def ofByte? (b : UInt8) : Option Opcode := all[b.toNat]?

/-- The name of a kind in listings. -/
def name : Opcode → String
  | constant => "OpConstant"
  | int => "OpInt"
  | load => "OpLoad"
  | store => "OpStore"
  | loadInt => "OpLoadInt"
  | storeInt => "OpStoreInt"
  | incLocal => "OpIncLocal"
  | dup => "OpDup"
  | pop => "OpPop"
  | jump => "OpJump"
  | jumpIfZero => "OpJumpIfZero"
  | jumpIfNonZero => "OpJumpIfNonZero"
  | jumpIfIntLess => "OpJumpIfIntLess"
  | findVariable => "OpFindVariable"
  | findFunction => "OpFindFunction"
  | setVariable => "OpSetVariable"
  | force => "OpForce"
  | checkFunction => "OpCheckFunction"
  | isBuiltin => "OpIsBuiltin"
  | isClosure => "OpIsClosure"
  | castBuiltin => "OpCastBuiltin"
  | castClosure => "OpCastClosure"
  | applySpecial => "OpApplySpecial"
  | newArgList => "OpNewArgList"
  | argAdd => "OpArgAdd"
  | argAddNamed => "OpArgAddNamed"
  | argAddAll => "OpArgAddAll"
  | applyClosure => "OpApplyClosure"
  | makeVariablePromise => "OpMakeVariablePromise"
  | makeThunk => "OpMakeThunk"
  | evalThunk => "OpEvalThunk"
  | loadEllipsis => "OpLoadEllipsis"
  | newNames => "OpNewNames"
  | nameAt => "OpNameAt"
  | spliceNames => "OpSpliceNames"
  | newValues => "OpNewValues"
  | valueAt => "OpValueAt"
  | spliceValues => "OpSpliceValues"
  | applyBuiltin => "OpApplyBuiltin"
  | callPrimitive => "OpCallPrimitive"
  | elementAt => "OpElementAt"
  | length => "OpLength"
  | addInt => "OpAddInt"
  | greaterEqual => "OpGreaterEqual"
  | makeClosure => "OpMakeClosure"
  | truthy => "OpTruthy"
  | boxInt => "OpBoxInt"
  | unboxInt => "OpUnboxInt"
  | ret => "OpReturn"

/-- The kind with a name. -/
def ofName? (s : String) : Option Opcode := all.toList.find? fun op => op.name = s

/-- The widths of the operands, in bytes. -/
def widths : Opcode → List Nat
  | int => [4]
  | load | store | loadInt | storeInt | incLocal => [1]
  | constant | jump | jumpIfZero | jumpIfNonZero | jumpIfIntLess | findVariable | findFunction
  | setVariable | checkFunction | argAddNamed | makeVariablePromise | makeThunk | evalThunk
  | newNames | spliceNames | newValues | valueAt | spliceValues | callPrimitive | makeClosure => [2]
  | nameAt => [2, 2]
  | dup | pop | force | isBuiltin | isClosure | castBuiltin | castClosure | applySpecial
  | newArgList | argAdd | argAddAll | applyClosure | loadEllipsis | applyBuiltin | elementAt
  | length | addInt | greaterEqual | truthy | boxInt | unboxInt | ret => []

/-- The length of an instruction, in bytes. -/
def size (op : Opcode) : Nat := 1 + op.widths.foldl (· + ·) 0

/-- The instruction may continue at its operand instead of the next instruction. -/
def isJump : Opcode → Bool
  | jump | jumpIfZero | jumpIfNonZero | jumpIfIntLess => true
  | _ => false

/-- A byte stands for the kind whose byte it is. -/
theorem ofByte?_toByte (op : Opcode) : ofByte? op.toByte = some op := by
  cases op <;> rfl

end Opcode

end CallByNeed
