import Std.Data.TreeMap
import CallByNeed.Code.Bytes
import CallByNeed.Code.Error
import CallByNeed.Flow.Text

/-!
# Jump targets

Jumps are emitted before it is known where their targets lie. A table gives every target a number
the first time it is mentioned, by a jump or by the block that starts there, and notes the jumps to
be completed once all targets are bound.
-/

namespace CallByNeed

/-- A jump target of a unit, by its number. -/
structure Mark where
  index : Nat
deriving DecidableEq

/-- A target: the name it is reported under, and where it lies once that is known. -/
structure JumpTarget where
  name : String
  position : Option Nat

/-- The operand of a jump that is not completed yet. -/
def unpatchedJump : Nat := 9999

/-- The targets of a unit, those that stand for flow labels, and the jumps to be completed. -/
structure Jumps where
  targets : Array JumpTarget := #[]
  labels : Std.TreeMap Nat Nat := {}
  /-- Offsets of jumps, with their targets. -/
  pending : Array (Nat × Mark) := #[]

namespace Jumps

/-- Adds a target. -/
def push (j : Jumps) (name : String) : Mark × Jumps :=
  (⟨j.targets.size⟩, { j with targets := j.targets.push ⟨name, none⟩ })

/-- The target of a flow label. -/
def resolve (j : Jumps) (l : Flow.Label) : Mark × Jumps :=
  match j.labels[l.id]? with
  | some i => (⟨i⟩, j)
  | none =>
    let (mark, j) := j.push l.text
    (mark, { j with labels := j.labels.insert l.id mark.index })

/-- A target without a flow label, used inside call sequences. -/
def fresh (j : Jumps) : Mark × Jumps := j.push s!"anon{j.targets.size}"

/-- Binds a target to a position. -/
def bind (j : Jumps) (m : Mark) (position : Nat) : Except CompileError Jumps :=
  match j.targets[m.index]? with
  | none => .error (.defect .foreignLabel)
  | some t =>
    match t.position with
    | some _ => .error (.defect (.labelBoundTwice t.name))
    | none =>
      .ok { j with targets := j.targets.setIfInBounds m.index { t with position := some position } }

/-- Where a target lies, once it is bound. -/
def position? (j : Jumps) (m : Mark) : Option Nat := j.targets[m.index]?.bind JumpTarget.position

/-- Notes that the jump at an offset goes to a target. -/
def record (j : Jumps) (offset : Nat) (m : Mark) : Jumps :=
  { j with pending := j.pending.push (offset, m) }

/-- Why jumps cannot be completed. -/
inductive Failure where
  | error (e : CompileError)
  /-- The operand of a jump would lie past the end of the code. -/
  | overrun

/-- Completes one jump. -/
def patch (j : Jumps) (code : Bytes) (offset : Nat) (m : Mark) : Except Failure Bytes :=
  match j.targets[m.index]? with
  | none => .error (.error (.defect .foreignLabel))
  | some t =>
    match t.position with
    | none => .error (.error (.unboundLabel t.name))
    | some target =>
      if target ≥ UInt16.size then .error (.error (.defect (.jumpTargetOutOfRange target)))
      else
        match code[offset]?.bind Opcode.ofByte? with
        | none => .error (.error (.defect (.noJumpAt offset)))
        | some op =>
          if op.isJump then
            match code.overwrite? offset (Instruction.encode ⟨op, [target]⟩) with
            | some code => .ok code
            | none => .error .overrun
          else .error (.error (.defect (.noJumpAt offset)))

/-- Completes jumps in order, up to the first that cannot be. The code comes with the jumps
completed so far. -/
def patchAll (j : Jumps) : List (Nat × Mark) → Bytes → Bytes × Option Failure
  | [], code => (code, none)
  | (offset, m) :: rest, code =>
    match j.patch code offset m with
    | .ok code => patchAll j rest code
    | .error f => (code, some f)

/-- Completes all jumps. -/
def apply (j : Jumps) (code : Bytes) : Bytes × Option Failure :=
  j.patchAll j.pending.toList code

end Jumps

end CallByNeed
