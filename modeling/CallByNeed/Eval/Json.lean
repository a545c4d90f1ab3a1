import CallByNeed.Code.OfProgram
import CallByNeed.Decimal.Literal
import CallByNeed.Eval.Store

/-!
# Values as JSON

A value is an object with its type and its content. Doubles are written as texts, so that all of
them can be. Functions, quoted expressions and promises are written as texts or counts that show
what they are; what is read instead is what they are made of: the source of a closure, the name of a
builtin, the value of a promise.
-/

namespace CallByNeed.Value

/-! ## Writing -/

/-- An object with a type. -/
def typed (type : String) (fields : List (String × Json)) : Json :=
  .record (("type", .str type) :: fields)

/-- How far the promise of a number is. -/
def promiseJson (s : Store) (p : PromiseId) : Json :=
  match s.promises[p]? with
  | some q =>
    typed "promise"
      [("forced", .bool q.isForced), ("evaluations", .number (.ofInt q.evaluations))]
  | none => typed "promise" []

mutual

/-- The JSON form of a value. -/
def toJson (s : Store) : Value → Json
  | .null => typed "NULL" []
  | .logical b => typed "logical" [("value", .bool b)]
  | .int n => typed "integer" [("value", .number (.ofInt n.toInt))]
  | .double x => typed "double" [("text", .str (Decimal.display x))]
  | .str t => typed "character" [("value", .str t)]
  | .vector vs => typed "list" [("values", .array (allJson s vs))]
  | .dots args => typed "..." [("args", .array (argsJson s args))]
  | .promise p => promiseJson s p
  | .symbol x => typed "symbol" [("text", .str x.name)]
  | .language e => typed "language" [("text", .str e.text)]
  | .closure unit _ => typed "closure" [("text", .str ("<closure " ++ unit.name ++ ">"))]
  | .builtin b => typed "builtin" [("text", .str (Value.builtin b).text)]
  | .special f => typed "special" [("text", .str (Value.special f).text)]

/-- The JSON forms of values. -/
def allJson (s : Store) : List Value → List Json
  | [] => []
  | v :: vs => v.toJson s :: allJson s vs

/-- The JSON forms of arguments. -/
def argsJson (s : Store) : List (Arg Value) → List Json
  | [] => []
  | ⟨name, v⟩ :: rest =>
    .record [("name", Symbol.optionJson name), ("value", v.toJson s)] :: argsJson s rest

end

/-! ## Reading -/

/-- A step of reading values. Promises are made in the store. -/
abbrev Reading := StateT Store Option

/-- The closure of a function literal in the global environment. -/
def closureOfJson? (nesting : Nat) (j : Json) : Option Value := do
  let f ← (j.get? "function").bind (Function.ofJson? nesting)
  let name := (j.getString? "name").getD "closure"
  match Compiling.functionLiteral {} .counting none name f #[] with
  | .ok unit _ => some (.closure unit globalEnv)
  | .error _ _ => none

/-- The value that is read without reading other values. -/
def plainOfJson? (nesting : Nat) (type : String) (j : Json) : Option Value :=
  match type with
  | "NULL" => some .null
  | "logical" => ((j.get? "value").bind Json.bool?).map .logical
  | "integer" => ((j.get? "value").bind Json.int32?).map .int
  | "double" => ((j.getString? "text").bind Decimal.read?).map .double
  | "character" => (j.getString? "value").map .str
  | "symbol" => (j.getString? "text").map fun name => .symbol ⟨name⟩
  | "language" => ((j.get? "sexp").bind (Expr.ofJson? nesting)).map .language
  | "closure" => closureOfJson? nesting j
  | "builtin" => ((j.getString? "name").bind Builtin.ofName?).map .builtin
  | "special" => ((j.getString? "name").bind Special.ofName?).map .special
  | _ => none

mutual

/-- The value that an object spells, nesting at most so deeply. -/
def ofJson? : Nat → Json → Reading Value
  | 0, _ => failure
  | nesting + 1, j => do
    match j.getString? "type" with
    | some "list" => return .vector (← (j.getItems "values").mapM (ofJson? nesting))
    | some "..." => return .dots (← (j.getItems "args").mapM (argOfJson? nesting))
    | some "promise" => do
      let some inner := j.get? "value" | failure
      let v ← ofJson? nesting inner
      modifyGet fun s => (.promise s.promises.size, s.addPromise ⟨.forced v, 0⟩)
    | some type => StateT.lift (plainOfJson? nesting type j)
    | none => failure

/-- The argument that an object spells. -/
def argOfJson? : Nat → Json → Reading (Arg Value)
  | 0, _ => failure
  | nesting + 1, j => do
    let some value := j.get? "value" | failure
    let v ← ofJson? nesting value
    return ⟨(j.getString? "name").map Symbol.mk, v⟩

end

end CallByNeed.Value
