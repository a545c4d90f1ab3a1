import CallByNeed.Expr.Program
import CallByNeed.Json.Reader
import CallByNeed.Json.Record
import CallByNeed.Json.Writer

/-!
# Programs as JSON

An expression is an object with one field, named for the kind of expression; `Null` may also stand
as a text. Calls, arguments, functions, formals, definitions and programs are records. What is
written always has all fields; what is read may leave out names, defaults and definitions.

A program nests at most `maxNesting` objects and arrays, ignored fields aside.
-/

namespace CallByNeed

/-! ## Writing -/

/-- An optional name. -/
def Symbol.optionJson (s : Option Symbol) : Json :=
  match s with
  | some s => .str s.name
  | none => .null

namespace Expr

mutual

/-- The JSON form of an expression. -/
def toJson : Expr → Json
  | .null => .str "Null"
  | .logical b => .record [("Logical", .bool b)]
  | .int n => .record [("Int", .number (.ofInt n.toInt))]
  | .double x => .record [("Double", .number (.ofFloat x))]
  | .str s => .record [("Str", .str s)]
  | .symbol s => .record [("Symbol", .str s.name)]
  | .call callee args =>
    .record [("Call", .record [("function", callee.toJson), ("args", .array (argsJson args))])]
  | .function formals body =>
    .record [("Function",
      .record [("formals", .array (formalsJson formals)), ("body", body.toJson)])]

/-- The JSON forms of arguments. -/
def argsJson : List (Arg Expr) → List Json
  | [] => []
  | ⟨name, value⟩ :: rest =>
    .record [("name", Symbol.optionJson name), ("value", value.toJson)] :: argsJson rest

/-- The JSON forms of formals. -/
def formalsJson : List (Formal Expr) → List Json
  | [] => []
  | ⟨name, some default⟩ :: rest =>
    .record [("name", .str name.name), ("default", default.toJson)] :: formalsJson rest
  | ⟨name, none⟩ :: rest =>
    .record [("name", .str name.name), ("default", .null)] :: formalsJson rest

end

end Expr

/-- The JSON form of a call. -/
def Call.toJson (c : Call) : Json :=
  .record [("function", c.callee.toJson), ("args", .array (Expr.argsJson c.args))]

/-- The JSON form of a function literal. -/
def Function.toJson (f : Function) : Json :=
  .record [("formals", .array (Expr.formalsJson f.formals)), ("body", f.body.toJson)]

/-- The JSON form of a program. -/
def Program.toJson (p : Program) : Json :=
  .record
    [("definitions", .array (p.definitions.map fun d =>
        .record [("name", .str d.name.name), ("function", d.function.toJson)])),
     ("body", p.body.toJson)]

/-- The text of a program file. -/
def Program.write (p : Program) : String := p.toJson.pretty

/-! ## Reading -/

/-- How many objects and arrays a program may nest. -/
def maxNesting : Nat := 127

/-- A name. -/
def Symbol.ofJson? (j : Json) : Option Symbol :=
  j.string?.map Symbol.mk

/-- A name that may be left out, or be null. -/
def Symbol.ofOptionalJson? : Option Json → Option (Option Symbol)
  | none | some .null => some none
  | some j => (Symbol.ofJson? j).map some

namespace Expr

mutual

/-- The expression that a value spells, nesting at most so many objects and arrays. -/
def ofJson? : Nat → Json → Option Expr
  | _, .text (some "Null") => some .null
  | nesting + 1, .object [(some kind, value)] =>
    match kind with
    | "Null" => match value with | .null => some .null | _ => none
    | "Logical" => value.bool?.map .logical
    | "Int" => value.int32?.map .int
    | "Double" => value.double?.map .double
    | "Str" => value.string?.map .str
    | "Symbol" => (Symbol.ofJson? value).map .symbol
    | "Call" => callOfJson? nesting value
    | "Function" => functionOfJson? nesting value
    | _ => none
  | _, _ => none

/-- The call that a record spells. -/
def callOfJson? : Nat → Json → Option Expr
  | 0, _ => none
  | nesting + 1, j =>
    match j.record? ["function", "args"] with
    | some [some callee, some args] => do
      let callee ← ofJson? nesting callee
      let args ← argsOfJson? nesting args
      some (.call callee args)
    | _ => none

/-- The arguments that an array spells. -/
def argsOfJson? : Nat → Json → Option (List (Arg Expr))
  | nesting + 1, .array items => items.mapM (argOfJson? nesting)
  | _, _ => none

/-- The argument that a record spells. -/
def argOfJson? : Nat → Json → Option (Arg Expr)
  | 0, _ => none
  | nesting + 1, j =>
    match j.record? ["name", "value"] with
    | some [name, some value] => do
      let name ← Symbol.ofOptionalJson? name
      let value ← ofJson? nesting value
      some ⟨name, value⟩
    | _ => none

/-- The function literal that a record spells. -/
def functionOfJson? : Nat → Json → Option Expr
  | 0, _ => none
  | nesting + 1, j =>
    match j.record? ["formals", "body"] with
    | some [some formals, some body] => do
      let formals ← formalsOfJson? nesting formals
      let body ← ofJson? nesting body
      some (.function formals body)
    | _ => none

/-- The formals that an array spells. -/
def formalsOfJson? : Nat → Json → Option (List (Formal Expr))
  | nesting + 1, .array items => items.mapM (formalOfJson? nesting)
  | _, _ => none

/-- The formal that a record spells. -/
def formalOfJson? : Nat → Json → Option (Formal Expr)
  | 0, _ => none
  | nesting + 1, j =>
    match j.record? ["name", "default"] with
    | some [some name, default] => do
      let name ← Symbol.ofJson? name
      match default with
      | none | some .null => some ⟨name, none⟩
      | some default => (ofJson? nesting default).map fun d => ⟨name, some d⟩
    | _ => none

end

end Expr

/-- The call that a value spells. -/
def Call.ofJson? (nesting : Nat) (j : Json) : Option Call :=
  match Expr.callOfJson? nesting j with
  | some (.call callee args) => some ⟨callee, args⟩
  | _ => none

/-- The function literal that a value spells. -/
def Function.ofJson? (nesting : Nat) (j : Json) : Option Function :=
  match Expr.functionOfJson? nesting j with
  | some (.function formals body) => some ⟨formals, body⟩
  | _ => none

/-- The definition that a value spells. -/
def Definition.ofJson? : Nat → Json → Option Definition
  | 0, _ => none
  | nesting + 1, j =>
    match j.record? ["name", "function"] with
    | some [some name, some function] => do
      let name ← Symbol.ofJson? name
      let function ← Function.ofJson? nesting function
      some ⟨name, function⟩
    | _ => none

/-- The definitions that an array spells; left out, there are none. -/
def Program.definitionsOfJson? : Nat → Option Json → Option (List Definition)
  | _, none => some []
  | nesting + 1, some (.array items) => items.mapM (Definition.ofJson? nesting)
  | _, _ => none

/-- The program that a value spells. -/
def Program.ofJson? : Nat → Json → Option Program
  | 0, _ => none
  | nesting + 1, j =>
    match j.record? ["definitions", "body"] with
    | some [definitions, some body] => do
      let definitions ← Program.definitionsOfJson? nesting definitions
      let body ← Expr.ofJson? nesting body
      some ⟨definitions, body⟩
    | _ => none

/-- The program that a file holds. -/
def Program.read? (text : String) : Option Program := do
  let j ← Json.read? text
  Program.ofJson? maxNesting j

/-- The expression that a text holds. -/
def Expr.read? (text : String) : Option Expr := do
  let j ← Json.read? text
  Expr.ofJson? maxNesting j

end CallByNeed
