/-!
# Compile errors

Why a program, or a flow body, cannot be turned into code. An error has a stable number and a
message; `Defect` names the causes that no body drafted from source gives rise to, and the two
limits that are reported the same way.
-/

namespace CallByNeed

/-- What is wrong with a flow body that is not drafted from source, or is too large. -/
inductive Defect where
  /-- A label of another table. -/
  | foreignLabel
  | labelBoundTwice (label : String)
  /-- A jump target beyond what two bytes hold. -/
  | jumpTargetOutOfRange (target : Nat)
  | noJumpAt (offset : Nat)
  /-- A slot kept for a native integer is assigned a value. -/
  | slotReboxed (slot : Nat) (unit : String)
  | readBeforeAssignment (operand : String)
  | blockFallsThrough (unit : String)
  | tooManyArguments (call : String)
deriving DecidableEq

/-- Why code cannot be produced. -/
inductive CompileError where
  | defect (d : Defect)
  | tooManySlots (unit : String) (limit : Nat)
  | tooManyConstants (unit : String) (limit : Nat)
  | unknownPrimitive (name : String)
  | misplacedEllipsis
  | multipleEllipsis (call : String)
  | argumentNameMismatch (call : String) (names arguments : Nat)
  | unboundLabel (label : String)
deriving DecidableEq

/-- What is wrong, in words. -/
def Defect.message : Defect → String
  | .foreignLabel => "label from another table"
  | .labelBoundTwice label => s!"label {label} bound twice"
  | .jumpTargetOutOfRange target => s!"jump target {target} out of range"
  | .noJumpAt offset => s!"no jump at offset {offset} to patch"
  | .slotReboxed slot unit => s!"integer slot {slot} of `{unit}` assigned a boxed value"
  | .readBeforeAssignment operand => s!"`{operand}` read before assignment"
  | .blockFallsThrough unit => s!"block of `{unit}` falls through"
  | .tooManyArguments call => s!"`{call}` has too many arguments"

namespace CompileError

/-- The message of a compile error. -/
def message : CompileError → String
  | .defect d => "internal lowering error: " ++ d.message
  | .tooManySlots unit limit => s!"`{unit}` needs more than {limit} slots"
  | .tooManyConstants unit limit => s!"`{unit}` needs more than {limit} constants"
  | .unknownPrimitive name => s!"unknown primitive `{name}`"
  | .misplacedEllipsis => "'...' used in an incorrect context"
  | .multipleEllipsis call => s!"`{call}` forwards '...' more than once"
  | .argumentNameMismatch call names arguments =>
    s!"`{call}` has {names} argument names for {arguments} arguments"
  | .unboundLabel label => s!"label {label} is referenced but never bound"

/-- The number of a compile error. -/
def code : CompileError → String
  | .defect _ => "E200"
  | .tooManySlots .. => "E201"
  | .tooManyConstants .. => "E202"
  | .unknownPrimitive _ => "E203"
  | .misplacedEllipsis => "E204"
  | .multipleEllipsis _ => "E205"
  | .argumentNameMismatch .. => "E206"
  | .unboundLabel _ => "E207"

end CompileError

end CallByNeed
