import CallByNeed.Eval.Value

/-!
# What builtins compute

A builtin receives its values with a name or none beside each; they are forced before. Arithmetic on
integers stays exact or fails; one double among the operands makes the result a double. A vector
that holds one value counts as that value where a number is wanted.
-/

namespace CallByNeed

/-! ## Numbers -/

/-- A number that is an operand. -/
inductive Numeric where
  | int (n : Int32)
  | double (x : Float)

/-- The number as a double. -/
def Numeric.toDouble : Numeric → Float
  | .int n => Value.doubleOfInt n
  | .double x => x

/-- The value of a number. -/
def Numeric.toValue : Numeric → Value
  | .int n => .int n
  | .double x => .double x

/-- The number that a value is to a function. -/
def Value.numeric (function : String) : Value → Except EvalError Numeric
  | .int n => .ok (.int n)
  | .logical b => .ok (.int (if b then 1 else 0))
  | .double x => .ok (.double x)
  | .vector [v] => v.numeric function
  | v =>
    .error (.argumentType ("non-numeric argument to `" ++ function ++ "`") "numeric" v.typeName)

namespace Builtin

/-- An exact integer as a result, if it has 32 bits. -/
def exact (function : String) (i : Int) : Except EvalError Numeric :=
  match Value.int32? i with
  | some n => .ok (.int n)
  | none => .error (.primitive function .integerOverflow)

/-- An operation on two numbers, exact on integers. -/
def arithmetic (function : String) (ints : Int → Int → Int) (doubles : Float → Float → Float)
    (a b : Value) : Except EvalError Value := do
  let a ← a.numeric function
  let b ← b.numeric function
  match a, b with
  | .int a, .int b => return (← exact function (ints a.toInt b.toInt)).toValue
  | a, b => return .double (doubles a.toDouble b.toDouble)

/-- An operation on two doubles. -/
def onDoubles (function : String) (op : Float → Float → Value) (a b : Value) :
    Except EvalError Value := do
  let a ← a.numeric function
  let b ← b.numeric function
  return op a.toDouble b.toDouble

/-- The number with the other sign. -/
def negate (a : Value) : Except EvalError Value := do
  match ← a.numeric "-" with
  | .int n => return (← exact "-" (-n.toInt)).toValue
  | .double x => return .double (-x)

/-- Equality: of two texts as texts, of anything else as numbers. -/
def equality : Value → Value → Except EvalError Value
  | .str a, .str b => .ok (.logical (a = b))
  | a, b => onDoubles "==" (fun x y => .logical (x == y)) a b

/-! ## Sums -/

mutual

/-- What a value adds to a sum: the values in nested vectors, and nothing for `NULL`. -/
def addends : Value → List Value
  | .null => []
  | .vector values => addendsOf values
  | v => [v]

/-- What several values add to a sum. -/
def addendsOf : List Value → List Value
  | [] => []
  | v :: vs => addends v ++ addendsOf vs

end

/-- One more addend. The sum is exact until the first double. -/
def addTo (total : Numeric) (v : Value) : Except EvalError Numeric := do
  match total, ← v.numeric "sum" with
  | .int a, .int b => exact "sum" (a.toInt + b.toInt)
  | total, x => return .double (total.toDouble + x.toDouble)

/-- The sum of values. -/
def sumOf (values : List Value) : Except EvalError Value := do
  let total ← (addendsOf values).foldlM addTo (.int 0)
  return total.toValue

/-! ## Vectors and texts -/

/-- What a value contributes to a concatenation: a vector its elements, `NULL` nothing. -/
def contribution : Value → List Value
  | .null => []
  | .vector values => values
  | v => [v]

/-- The concatenation of values; without any, `NULL`. -/
def concatenation (values : List Value) : Value :=
  match values.flatMap contribution with
  | [] => .null
  | vs => .vector vs

/-- The text of a value inside a pasted text. -/
def pasted : Value → Except EvalError String
  | .str s => .ok s
  | .int n => .ok (Int32.text n)
  | .double x => .ok (Decimal.display x)
  | .logical b => .ok (logicalText b)
  | .symbol s => .ok s.name
  | .null => .ok ""
  | v => .error (.argumentType "cannot coerce to character" "character" v.typeName)

/-- The separator of a pasted text: the first argument named `sep`, or a blank. -/
def separator (names : List (Option Symbol)) (values : List Value) : Except EvalError String :=
  match (names.zip values).find? fun a => a.1 = some ⟨"sep"⟩ with
  | none => .ok " "
  | some (_, .str s) => .ok s
  | some (_, v) => .error (.argumentType "invalid separator" "character" v.typeName)

/-- The texts of the arguments without a name, with the separator between them. -/
def pasteOf (names : List (Option Symbol)) (values : List Value) : Except EvalError Value := do
  let sep ← separator names values
  let unnamed := (names.zip values).filterMap fun a => if a.1.isNone then some a.2 else none
  let texts ← (unnamed.flatMap contribution).mapM pasted
  return .str (sep.intercalate texts)

/-- The element at a position, from one. The position is counted from zero before it is looked at;
the least integer has none below it. -/
def elementOf (v subscript : Value) : Except Halt Value := do
  let index ← (subscript.asInt "subscript").mapError Halt.error
  match Value.int32? (index.toInt - 1) with
  | some index => (v.elementAt index).mapError Halt.error
  | none => throw .abort

/-- The length as an integer. -/
def lengthOf (v : Value) : Except EvalError Int32 :=
  match Value.int32? v.length with
  | some n => .ok n
  | none => .error (.primitive "length" .lengthTooLarge)

/-! ## Invocation -/

/-- The least and the greatest number of arguments, where there is a bound. -/
def arity? : Builtin → Option (Nat × Nat)
  | .add | .sub => some (1, 2)
  | .mul | .div | .atLeast | .less | .equal | .element => some (2, 2)
  | .not | .length | .identity => some (1, 1)
  | .sum | .concat | .list | .paste => none

/-- The error of a call with a wrong number of arguments. -/
def arityError (b : Builtin) (call : Call) (got : Nat) : EvalError :=
  let (least, most) := b.arity?.getD (0, got)
  .argumentCount call.text (.arity got least most)

/-- The result on arguments with as many names as values. -/
def apply (b : Builtin) (call : Call) (names : List (Option Symbol)) (values : List Value) :
    Except Halt Value :=
  let plain (r : Except EvalError Value) : Except Halt Value := r.mapError Halt.error
  match b, values with
  | .add, [a] => .ok a
  | .add, [a, b] => plain (arithmetic "+" (· + ·) (· + ·) a b)
  | .sub, [a] => plain (negate a)
  | .sub, [a, b] => plain (arithmetic "-" (· - ·) (· - ·) a b)
  | .mul, [a, b] => plain (arithmetic "*" (· * ·) (· * ·) a b)
  | .div, [a, b] => plain (onDoubles "/" (fun x y => .double (x / y)) a b)
  | .atLeast, [a, b] => plain (onDoubles ">=" (fun x y => .logical (x ≥ y)) a b)
  | .less, [a, b] => plain (onDoubles "<" (fun x y => .logical (x < y)) a b)
  | .equal, [a, b] => plain (equality a b)
  | .not, [a] => plain (a.truthy.map fun t => .logical !t)
  | .length, [a] => plain ((lengthOf a).map .int)
  | .identity, [a] => .ok a
  | .element, [v, subscript] => elementOf v subscript
  | .sum, values => plain (sumOf values)
  | .concat, values => .ok (concatenation values)
  | .list, values => .ok (.vector values)
  | .paste, values => plain (pasteOf names values)
  | b, values => .error (.error (b.arityError call values.length))

/-- The result of a call. Names and values run side by side. -/
def invoke (b : Builtin) (call : Call) (names : List (Option Symbol)) (values : List Value) :
    Except Halt Value :=
  if names.length = values.length then b.apply call names values
  else .error (.error (.internal (.nameCount b.name names.length values.length)))

end Builtin

end CallByNeed
