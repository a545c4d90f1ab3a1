import CallByNeed.Code.Error

/-!
# Evaluation errors

What can go wrong while a program runs. All errors but the internal ones and those of compiling a
function literal on the way are errors of the language: they unwind to the caller. Each error has a
stable number and a message.
-/

namespace CallByNeed

/-- What is wrong with the arguments of a call. -/
inductive ArgumentFault where
  /-- Two arguments have the name of one formal. -/
  | matchedTwice (formal : String)
  /-- An argument is left over, shown as it was supplied. -/
  | unused (argument : String)
  /-- A special form lacks an operand, counted from one. -/
  | missingOperand (form : String) (position : Nat)
  /-- A builtin got the wrong number of arguments. -/
  | arity (got least most : Nat)
deriving DecidableEq

/-- Why a builtin, a special form or a loop fails. -/
inductive PrimitiveFault where
  | integerOverflow
  | counterOverflow
  | outOfBounds
  | missingCondition
  | assignmentTarget
  | loopVariable
  | sequenceTooLong
  | lengthTooLarge
  | misplacedEllipsis
deriving DecidableEq

/-- What is wrong with code that no compiler produces. -/
inductive InternalFault where
  | ranPast (unit : String)
  | unknownOpcode (byte : Nat)
  | stackUnderflow
  | wrongWord (expected found : String)
  | unassignedSlot (index : Nat)
  | slotRange (index : Nat)
  | constantRange (index : Nat) (unit : String)
  | notAName (constant : String)
  | notACall (constant : String)
  | notPushable (constant : String)
  /-- An index into a table of some kind is out of range. -/
  | tableRange (kind : String) (index : Nat) (owner : String)
  | wrongCategory (expected call found : String)
  | unknownPrimitive (name : String)
  | spliceRange (array : String) (position length : Nat)
  | nameCount (builtin : String) (names values : Nat)
  | strangeCallee (call found : String)
deriving DecidableEq

/-- Why an evaluation fails. -/
inductive EvalError where
  | unresolvedFunction (name : String)
  | notCallable (call : String)
  | argumentCount (call : String) (fault : ArgumentFault)
  | argumentType (context expected found : String)
  | unbound (name : String)
  | promiseRecursion
  | depthExceeded (limit : Nat)
  | primitive (function : String) (fault : PrimitiveFault)
  | compile (e : CompileError)
  | internal (fault : InternalFault)
deriving DecidableEq

/-! ## Messages -/

/-- What is wrong with the arguments, in words. -/
def ArgumentFault.message : ArgumentFault → String
  | .matchedTwice formal => s!"formal argument \"{formal}\" matched by multiple actual arguments"
  | .unused argument => s!"unused argument ({argument})"
  | .missingOperand form position => s!"`{form}` is missing argument {position}"
  | .arity got least most =>
    let expected := if least = most then s!"{least}" else s!"{least} to {most}"
    s!"{got} arguments passed where {expected} expected"

/-- Why a primitive operation fails, in words. -/
def PrimitiveFault.message : PrimitiveFault → String
  | .integerOverflow => "integer overflow"
  | .counterOverflow => "integer overflow in loop counter"
  | .outOfBounds => "subscript out of bounds"
  | .missingCondition => "missing value where TRUE/FALSE needed"
  | .assignmentTarget => "invalid assignment target"
  | .loopVariable => "invalid for() loop sequence"
  | .sequenceTooLong => "sequence too long"
  | .lengthTooLarge => "length exceeds integer range"
  | .misplacedEllipsis => "'...' used in an incorrect context"

/-- What is wrong with the code, in words. -/
def InternalFault.message : InternalFault → String
  | .ranPast unit => s!"`{unit}` ran past its last instruction"
  | .unknownOpcode byte => s!"unknown opcode {byte}"
  | .stackUnderflow => "stack underflow"
  | .wrongWord expected found => s!"expected {expected} on stack, found {found}"
  | .unassignedSlot index => s!"read of unassigned slot {index}"
  | .slotRange index => s!"slot {index} out of range"
  | .constantRange index unit => s!"constant {index} out of range in `{unit}`"
  | .notAName constant => s!"expected a name, found `{constant}`"
  | .notACall constant => s!"expected a call, found `{constant}`"
  | .notPushable constant => s!"`{constant}` cannot be pushed"
  | .tableRange kind index owner => s!"{kind} {index} out of range in `{owner}`"
  | .wrongCategory expected call found => s!"{expected} branch of `{call}` reached with a {found}"
  | .unknownPrimitive name => s!"no primitive named `{name}`"
  | .spliceRange array position length =>
    s!"splice position {position} outside {array} array of length {length}"
  | .nameCount builtin names values => s!"`{builtin}` received {names} names for {values} values"
  | .strangeCallee call found => s!"callee of `{call}` resolved to {found}"

namespace EvalError

/-- The message of an evaluation error. -/
def message : EvalError → String
  | .unresolvedFunction name => s!"could not find function \"{name}\""
  | .notCallable call => s!"attempt to apply non-function in `{call}`"
  | .argumentCount call fault => s!"{fault.message} in `{call}`"
  | .argumentType context expected found => s!"{context}: expected {expected}, got {found}"
  | .unbound name => s!"object '{name}' not found"
  | .promiseRecursion =>
    "promise already under evaluation: recursive default argument reference or earlier problems?"
  | .depthExceeded limit =>
    s!"evaluation nested too deeply: infinite recursion? (limit {limit})"
  | .primitive function fault => s!"error in {function}: {fault.message}"
  | .compile e => e.message
  | .internal fault => "internal error: " ++ fault.message

/-- The number of an evaluation error. -/
def code : EvalError → String
  | .argumentCount .. => "E1000"
  | .notCallable _ => "E1001"
  | .unresolvedFunction _ => "E1002"
  | .unbound _ => "E1003"
  | .argumentType .. => "E1004"
  | .promiseRecursion => "E1005"
  | .depthExceeded _ => "E1006"
  | .primitive .. => "E1007"
  | .compile e => e.code
  | .internal _ => "E1099"

end EvalError

/-! ## Ways to stop -/

/-- Why an evaluation stops without a value. -/
inductive Halt where
  | error (e : EvalError)
  /-- The evaluator breaks off: an operand lies past the end of the code, or a subscript cannot be
  counted from zero in 32 bits. -/
  | abort
  /-- The bound on nested evaluations, or on the steps of one of them, is used up. -/
  | exhausted
deriving DecidableEq

end CallByNeed
