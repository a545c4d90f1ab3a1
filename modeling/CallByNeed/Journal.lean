/-!
# Journal

What the compiler and the evaluator report while they work, in order.
-/

namespace CallByNeed

/-- How much a reader wants to know: each level includes those before it. -/
inductive LogLevel where
  | info
  | debug
  | trace
deriving DecidableEq

/-- The name of a level in front of a message. -/
def LogLevel.name : LogLevel → String
  | .info => "INFO"
  | .debug => "DEBUG"
  | .trace => "TRACE"

/-- How deep a level goes. -/
def LogLevel.rank : LogLevel → Nat
  | .info => 0
  | .debug => 1
  | .trace => 2

/-- One message. -/
structure LogRecord where
  level : LogLevel
  message : String

/-- Messages, the first one first. -/
abbrev Journal := Array LogRecord

/-- The lines of a journal for a reader of a level. -/
def Journal.lines (j : Journal) (level : LogLevel) : List String :=
  (j.toList.filter fun r => r.level.rank ≤ level.rank).map fun r =>
    r.level.name ++ " " ++ r.message

end CallByNeed
