import CallByNeed.Builtin
import CallByNeed.Code.Unit
import CallByNeed.Decimal.Integral
import CallByNeed.Eval.Error

/-!
# Values

What programs compute with. Environments and promises are shared and change, so that values refer to
them by number; everything else is held by the value itself. Promises and argument lists are values
only so that they can be bound to names: no expression evaluates to one.
-/

namespace CallByNeed

/-- The number of an environment. -/
abbrev EnvId := Nat

/-- The number of a promise. -/
abbrev PromiseId := Nat

/-- A value. -/
inductive Value where
  | null
  | logical (b : Bool)
  | int (n : Int32)
  | double (x : Float)
  | str (s : String)
  | vector (values : List Value)
  | symbol (s : Symbol)
  /-- A quoted call or function literal. -/
  | language (e : Expr)
  | promise (id : PromiseId)
  /-- A compiled function literal with the environment it was made in. -/
  | closure (unit : FunctionUnit) (env : EnvId)
  | builtin (b : Builtin)
  | special (s : Special)
  /-- The arguments bound to `...`. -/
  | dots (args : List (Arg Value))

/-- Arguments, with names or without. -/
abbrev ArgList := List (Arg Value)

/-- The three ways in which a function can be invoked. -/
inductive Category where
  | builtin
  | closure
  | special
deriving DecidableEq

namespace Value

/-! ## Kinds -/

/-- The name of a value's type in messages. -/
def typeName : Value → String
  | .null => "NULL"
  | .logical _ => "logical"
  | .int _ => "integer"
  | .double _ => "double"
  | .str _ => "character"
  | .vector _ => "list"
  | .symbol _ => "symbol"
  | .language _ => "language"
  | .promise _ => "promise"
  | .closure .. => "closure"
  | .builtin _ => "builtin"
  | .special _ => "special"
  | .dots _ => "..."

/-- The category of a function; other values have none. -/
def category? : Value → Option Category
  | .builtin _ => some .builtin
  | .closure .. => some .closure
  | .special _ => some .special
  | _ => none

/-- The value of a literal. Names and calls are quoted. -/
def ofExpr : Expr → Value
  | .null => .null
  | .logical b => .logical b
  | .int n => .int n
  | .double x => .double x
  | .str s => .str s
  | .symbol s => .symbol s
  | .call callee args => .language (.call callee args)
  | .function formals body => .language (.function formals body)

/-! ## Text -/

mutual

/-- The text of a value. -/
def text : Value → String
  | .null => "NULL"
  | .logical b => logicalText b
  | .int n => Int32.text n ++ "L"
  | .double x => Decimal.display x
  | .str s => "\"" ++ s ++ "\""
  | .vector values => "[" ++ ", ".intercalate (texts values) ++ "]"
  | .symbol s => s.name
  | .language e => e.text
  | .promise _ => "<promise>"
  | .closure unit _ => "<closure " ++ unit.name ++ ">"
  | .builtin b => "<builtin " ++ b.name ++ ">"
  | .special s => "<special " ++ s.name ++ ">"
  | .dots args => s!"<... length {args.length}>"

/-- The texts of values. -/
def texts : List Value → List String
  | [] => []
  | v :: vs => v.text :: texts vs

end

/-! ## Length and elements -/

/-- How many elements a value has. Scalars have one. -/
def length : Value → Nat
  | .null => 0
  | .vector values => values.length
  | .dots args => args.length
  | _ => 1

/-- A subscript is out of bounds. -/
def outOfBounds : EvalError := .primitive "[[" .outOfBounds

/-- The element at a position, from zero. Scalars are vectors of length one. -/
def elementAt (v : Value) (index : Int32) : Except EvalError Value :=
  if index < 0 then .error outOfBounds
  else
    match v with
    | .vector values =>
      match values[index.toInt.toNat]? with
      | some v => .ok v
      | none => .error outOfBounds
    | .null => .error outOfBounds
    | scalar => if index = 0 then .ok scalar else .error outOfBounds

/-! ## Narrowing -/

/-- The 32-bit integer that an integer is, if it fits. -/
def int32? (i : Int) : Option Int32 :=
  if Int32.minValue.toInt ≤ i ∧ i ≤ Int32.maxValue.toInt then some (Int32.ofInt i) else none

/-- The double that a 32-bit integer is. -/
def doubleOfInt (n : Int32) : Float := Float.ofInt n.toInt

/-- The value as an integer: integers, truth values, whole doubles in range, and vectors that hold
one of these. -/
def asInt (context : String) : Value → Except EvalError Int32
  | .int n => .ok n
  | .logical b => .ok (if b then 1 else 0)
  | .double x =>
    match (Decimal.integral? x).bind int32? with
    | some n => .ok n
    | none => .error (.argumentType context "integer" "double")
  | .vector [v] => v.asInt context
  | v => .error (.argumentType context "integer" v.typeName)

/-- The value as a double. -/
def asDouble (context : String) : Value → Except EvalError Float
  | .int n => .ok (doubleOfInt n)
  | .double x => .ok x
  | .logical b => .ok (if b then 1 else 0)
  | .vector [v] => v.asDouble context
  | v => .error (.argumentType context "numeric" v.typeName)

/-- The comparison `a >= b`, of the doubles that the values are. Every 32-bit integer is a double of
its own, in the same order, so that two integers are compared as they are. -/
def atLeast (a b : Value) : Except EvalError Bool :=
  match a, b with
  | .int a, .int b => .ok (b ≤ a)
  | a, b => do
    let y ← b.asDouble ">="
    let x ← a.asDouble ">="
    return x ≥ y

/-- The value as a condition. A vector is judged by its first element; a double that is no number
cannot be judged. -/
def truthy : Value → Except EvalError Bool
  | .logical b => .ok b
  | .int n => .ok (n != 0)
  | .double x => if x.isNaN then .error (.primitive "if" .missingCondition) else .ok (x != 0)
  | .vector (v :: _) => v.truthy
  | v => .error (.argumentType "argument is not interpretable as logical" "logical" v.typeName)

/-! ## Equality -/

mutual

/-- Equality of values: by content, with doubles compared as numbers. Promises are equal to
themselves only; closures and argument lists have no identity of their own and equal nothing. -/
def same : Value → Value → Bool
  | .null, .null => true
  | .logical a, .logical b => a = b
  | .int a, .int b => a = b
  | .double a, .double b => a == b
  | .str a, .str b => a = b
  | .vector a, .vector b => sameAll a b
  | .symbol a, .symbol b => a = b
  | .language a, .language b => a.same b
  | .promise a, .promise b => a = b
  | .builtin a, .builtin b => a = b
  | .special a, .special b => a = b
  | _, _ => false

/-- Equality of values one by one. -/
def sameAll : List Value → List Value → Bool
  | [], [] => true
  | a :: as, b :: bs => a.same b && sameAll as bs
  | _, _ => false

end

end Value

end CallByNeed
