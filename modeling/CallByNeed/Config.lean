import CallByNeed.Json.Reader
import CallByNeed.Json.Record

/-!
# Settings

What the compiler and the evaluator can be told: in a JSON file, where every field may be left out,
and then in environment variables, which win over the file.
-/

namespace CallByNeed

/-- Settings of the compiler. -/
structure CompilerOptions where
  /-- `if`, `for`, braces and `<-` become branches instead of calls. -/
  inlineControlFlow : Bool := true
  /-- Counters and lengths are kept as native integers. -/
  integerFastPath : Bool := true
  /-- Builtins that are called directly, without looking up the callee. -/
  staticPrimitives : List String := []
  /-- Definitions may be compiled side by side. The result does not depend on it. -/
  parallel : Bool := true

/-- The name is one of the builtins that are called directly. -/
def CompilerOptions.isStaticPrimitive (o : CompilerOptions) (name : String) : Bool :=
  o.staticPrimitives.contains name

/-- Settings of the evaluator. -/
structure RuntimeOptions where
  /-- How deeply closures and compiled promises may nest. -/
  maxDepth : Nat := 1000
  /-- Every executed instruction is logged. -/
  trace : Bool := false

/-- All settings. -/
structure Config where
  compiler : CompilerOptions := {}
  runtime : RuntimeOptions := {}

/-! ## JSON -/

/-- A field that has a default. -/
def Json.orDefault {α : Type} (read : Json → Option α) (default : α) : Option Json → Option α
  | none => some default
  | some j => read j

/-- The compiler settings that a record spells. -/
def CompilerOptions.ofJson? (j : Json) : Option CompilerOptions :=
  let base : CompilerOptions := {}
  match j.record? ["inline_control_flow", "integer_fast_path", "static_primitives", "parallel"] with
  | some [inlined, fast, statics, parallel] => do
    let inlined ← Json.orDefault Json.bool? base.inlineControlFlow inlined
    let fast ← Json.orDefault Json.bool? base.integerFastPath fast
    let statics ← Json.orDefault (fun j => j.items?.bind (·.mapM Json.string?))
      base.staticPrimitives statics
    let parallel ← Json.orDefault Json.bool? base.parallel parallel
    some ⟨inlined, fast, statics, parallel⟩
  | _ => none

/-- The evaluator settings that a record spells. -/
def RuntimeOptions.ofJson? (j : Json) : Option RuntimeOptions :=
  let base : RuntimeOptions := {}
  match j.record? ["max_depth", "trace"] with
  | some [maxDepth, trace] => do
    let maxDepth ← Json.orDefault Json.nat64? base.maxDepth maxDepth
    let trace ← Json.orDefault Json.bool? base.trace trace
    some ⟨maxDepth, trace⟩
  | _ => none

/-- The settings that a record spells. -/
def Config.ofJson? (j : Json) : Option Config :=
  match j.record? ["compiler", "runtime"] with
  | some [compiler, runtime] => do
    let compiler ← Json.orDefault CompilerOptions.ofJson? {} compiler
    let runtime ← Json.orDefault RuntimeOptions.ofJson? {} runtime
    some ⟨compiler, runtime⟩
  | _ => none

/-- The settings that a file holds. -/
def Config.read? (text : String) : Option Config := do
  let j ← Json.read? text
  Config.ofJson? j

/-- The JSON form of all settings. -/
def Config.toJson (c : Config) : Json :=
  .record
    [("compiler", .record
      [("inline_control_flow", .bool c.compiler.inlineControlFlow),
       ("integer_fast_path", .bool c.compiler.integerFastPath),
       ("static_primitives", .array (c.compiler.staticPrimitives.map Json.str)),
       ("parallel", .bool c.compiler.parallel)]),
     ("runtime", .record
      [("max_depth", .number (.ofInt c.runtime.maxDepth)),
       ("trace", .bool c.runtime.trace)])]

/-! ## Environment variables -/

/-- A value of an environment variable that cannot be read. -/
structure InvalidOverride where
  key : String
  value : String

/-- The message of a value that cannot be read. -/
def InvalidOverride.message (e : InvalidOverride) : String :=
  "invalid value `" ++ e.value ++ "` for " ++ e.key

/-- The property White_Space. -/
def isWhiteSpace (c : Char) : Bool :=
  let n := c.toNat
  (0x09 ≤ n && n ≤ 0x0D) || n = 0x20 || n = 0x85 || n = 0xA0 || n = 0x1680
    || (0x2000 ≤ n && n ≤ 0x200A) || n = 0x2028 || n = 0x2029 || n = 0x202F || n = 0x205F
    || n = 0x3000

/-- Drops white space at both ends. -/
def trimmed (s : String) : List Char :=
  ((s.toList.dropWhile isWhiteSpace).reverse.dropWhile isWhiteSpace).reverse

/-- A flag: `1`, `true`, `yes` and `on` set it; `0`, `false`, `no`, `off` and nothing clear it. -/
def readFlag (key value : String) : Except InvalidOverride Bool :=
  let word := String.ofList ((trimmed value).map Char.toLower)
  if ["1", "true", "yes", "on"].contains word then .ok true
  else if ["0", "false", "no", "off", ""].contains word then .ok false
  else .error ⟨key, value⟩

/-- A count of 64 bits: digits, with a plus sign at will. -/
def readCount (key value : String) : Except InvalidOverride Nat :=
  let digits :=
    match trimmed value with
    | '+' :: rest => rest
    | rest => rest
  if digits.isEmpty || !digits.all Char.isDigit then .error ⟨key, value⟩
  else
    let n := Decimal.valueOf digits
    if n < UInt64.size then .ok n else .error ⟨key, value⟩

/-- Applies the overrides in order: tracing, depth limit, parallel compilation. An invalid value
stops there; the settings changed so far come with the error. -/
def Config.applyOverrides (c : Config) (lookup : String → Option String) :
    Config × Option InvalidOverride :=
  let trace (c : Config) : Except InvalidOverride Config :=
    match lookup "RILL_TRACE" with
    | none => .ok c
    | some v => (readFlag "RILL_TRACE" v).map fun b =>
      { c with runtime := { c.runtime with trace := b } }
  let depth (c : Config) : Except InvalidOverride Config :=
    match lookup "RILL_MAX_DEPTH" with
    | none => .ok c
    | some v => (readCount "RILL_MAX_DEPTH" v).map fun n =>
      { c with runtime := { c.runtime with maxDepth := n } }
  let parallel (c : Config) : Except InvalidOverride Config :=
    match lookup "RILL_PARALLEL" with
    | none => .ok c
    | some v => (readFlag "RILL_PARALLEL" v).map fun b =>
      { c with compiler := { c.compiler with parallel := b } }
  [trace, depth, parallel].foldl
    (fun (acc : Config × Option InvalidOverride) change =>
      match acc with
      | (c, some e) => (c, some e)
      | (c, none) =>
        match change c with
        | .ok c => (c, none)
        | .error e => (c, some e))
    (c, none)

end CallByNeed
