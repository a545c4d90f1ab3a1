import Std.Data.TreeMap
import CallByNeed.Code.Constant
import CallByNeed.Code.Error
import CallByNeed.Flow.Basic

/-!
# Constant pool and registries of nested units

Tables that hand out indexes while a unit is being compiled. Names and builtins are entered once per
name, calls once per call site, nested units once per identity; literals are entered each time. No
table grows beyond what a two-byte operand can address.
-/

namespace CallByNeed

/-- The number of indexes that a two-byte operand can address. -/
def maxConstants : Nat := UInt16.size

/-! ## Constants -/

/-- The constants of a unit, and where those that are shared have been entered. -/
structure Pool where
  unit : String
  entries : Array Constant := #[]
  names : Std.TreeMap String Nat := {}
  primitives : Std.TreeMap String Nat := {}
  calls : Std.TreeMap Nat Nat := {}

namespace Pool

/-- How many constants the pool holds. -/
def size (p : Pool) : Nat := p.entries.size

end Pool

/-- A step on a pool, which may fail. -/
abbrev Entering := EStateM CompileError Pool

namespace Pool

/-- Enters a constant. A full pool stays as it is. -/
def push (c : Constant) : Entering Nat := fun p =>
  if p.size < maxConstants then .ok p.size { p with entries := p.entries.push c }
  else .error (.tooManyConstants p.unit maxConstants) p

/-- Enters a literal. -/
def literal (e : Expr) : Entering Nat := push (.literal e)

/-- The index of a name. -/
def name (s : Symbol) : Entering Nat := do
  match (← get).names[s.name]? with
  | some i => return i
  | none =>
    let i ← push (.name s)
    modify fun p => { p with names := p.names.insert s.name i }
    return i

/-- The index of a builtin. -/
def primitive (s : Symbol) : Entering Nat := do
  match (← get).primitives[s.name]? with
  | some i => return i
  | none =>
    let i ← push (.primitive s)
    modify fun p => { p with primitives := p.primitives.insert s.name i }
    return i

/-- The index of a call site. -/
def call (c : Flow.CallSite) : Entering Nat := do
  match (← get).calls[c.id]? with
  | some i => return i
  | none =>
    let i ← push (.call c.call)
    modify fun p => { p with calls := p.calls.insert c.id i }
    return i

end Pool

/-! ## Nested units -/

/-- Units by the identity of the body that they were compiled from. -/
structure Registry (υ : Type) where
  indexes : Std.TreeMap Nat Nat := {}
  units : Array υ := #[]

namespace Registry

variable {υ : Type}

/-- How many units there are. -/
def size (r : Registry υ) : Nat := r.units.size

/-- The index of the unit compiled from a body. -/
def index? (r : Registry υ) (node : Flow.NodeId) : Option Nat := r.indexes[node.id]?

/-- Adds the unit compiled from a body, under the next index. -/
def insert (r : Registry υ) (node : Flow.NodeId) (unit : υ) : Nat × Registry υ :=
  (r.size, ⟨r.indexes.insert node.id r.size, r.units.push unit⟩)

end Registry

/-- The name of a nested unit. -/
def nestedName (unit kind : String) (index : Nat) : String := s!"{unit}${kind}{index}"

end CallByNeed
