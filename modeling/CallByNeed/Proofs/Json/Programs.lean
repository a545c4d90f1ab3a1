import CallByNeed.Expr.Json
import CallByNeed.Proofs.Json.RoundTrip

/-!
# Programs that are written and read

A program is read back from what was written for it (`Program.read?_write`), whatever texts and
names it holds and however calls and functions nest in it, as long as its JSON form nests no more
objects and arrays than a reader accepts (`Json.nesting`) and its doubles survive the number layer
(`Json.Number.Returns`).

Writing and reading recurse along the expression in the same way. At each shape it is checked that
the record that is written has the fields that are asked for, and that each of them nests less
deeply. -/

namespace CallByNeed

/-! ## How deeply a value nests -/

namespace Json

mutual

/-- How many objects and arrays lie inside each other at most. -/
def nesting : Json → Nat
  | .array items => itemsNesting items + 1
  | .object fields => fieldsNesting fields + 1
  | .null | .bool _ | .number _ | .text _ => 0

/-- The deepest nesting of the items. -/
def itemsNesting : List Json → Nat
  | [] => 0
  | item :: items => max item.nesting (itemsNesting items)

/-- The deepest nesting of the fields. -/
def fieldsNesting : List (Text × Json) → Nat
  | [] => 0
  | (_, value) :: fields => max value.nesting (fieldsNesting fields)

end

/-! ## Records -/

variable {x y : String} {u v : Json}

@[simp] lemma nesting_str (s : String) : (str s).nesting = 0 := rfl

@[simp] lemma nesting_field : (record [(x, u)]).nesting = u.nesting + 1 := by
  simp [record, nesting, fieldsNesting]

@[simp] lemma nesting_pair : (record [(x, u), (y, v)]).nesting = max u.nesting v.nesting + 1 := by
  simp [record, nesting, fieldsNesting]

@[simp] lemma legible_field : (record [(x, u)]).Legible ↔ u.Legible := by
  simp [record, Legible, LegibleFields]

@[simp] lemma legible_pair : (record [(x, u), (y, v)]).Legible ↔ u.Legible ∧ v.Legible := by
  simp [record, Legible, LegibleFields]

/-- A record of two fields has these fields. -/
lemma record?_pair (h : x ≠ y) :
    (record [(x, u), (y, v)]).record? [x, y] = some [some u, some v] := by
  simp [record, record?, field?, h, h.symm]

end Json

/-! ## Doubles in an expression -/

namespace Expr

mutual

/-- The double literals in an expression, in order. -/
def doubles : Expr → List Float
  | .double x => [x]
  | .call callee args => callee.doubles ++ argsDoubles args
  | .function formals body => formalsDoubles formals ++ body.doubles
  | .null | .logical _ | .int _ | .str _ | .symbol _ => []

/-- The double literals in arguments. -/
def argsDoubles : List (Arg Expr) → List Float
  | [] => []
  | ⟨_, value⟩ :: rest => value.doubles ++ argsDoubles rest

/-- The double literals in the defaults of formals. -/
def formalsDoubles : List (Formal Expr) → List Float
  | [] => []
  | ⟨_, some default⟩ :: rest => default.doubles ++ formalsDoubles rest
  | ⟨_, none⟩ :: rest => formalsDoubles rest

end

end Expr

/-- The double literals in a program. -/
def Program.doubles (p : Program) : List Float :=
  (p.definitions.flatMap fun d => d.function.toExpr.doubles) ++ p.body.doubles

/-! ## What is written is legible -/

lemma Symbol.legible_optionJson (name : Option Symbol) : (Symbol.optionJson name).Legible := by
  match name with
  | none => trivial
  | some s => rfl

namespace Expr

mutual

/-- The JSON form of an expression is legible, if its doubles are. -/
lemma legible_toJson : ∀ {e : Expr}, (∀ x ∈ e.doubles, Json.Number.Returns x) → e.toJson.Legible
  | .null, _ => rfl
  | .logical b, _ => by simp [toJson, Json.Legible]
  | .int n, _ => by simpa [toJson, Json.Legible] using Json.Number.legible_ofInt _
  | .double x, h => by simpa [toJson, Json.Legible] using (h x (by simp [doubles])).legible
  | .str s, _ => by simp [toJson, Json.str, Json.Legible]
  | .symbol s, _ => by simp [toJson, Json.str, Json.Legible]
  | .call callee args, h => by
    have hcallee : callee.toJson.Legible := legible_toJson fun x hx => h x (by simp [doubles, hx])
    have hargs : Json.LegibleItems (argsJson args) :=
      legible_argsJson fun x hx => h x (by simp [doubles, hx])
    simpa [toJson, Json.Legible] using And.intro hcallee hargs
  | .function formals body, h => by
    have hformals : Json.LegibleItems (formalsJson formals) :=
      legible_formalsJson fun x hx => h x (by simp [doubles, hx])
    have hbody : body.toJson.Legible := legible_toJson fun x hx => h x (by simp [doubles, hx])
    simpa [toJson, Json.Legible] using And.intro hformals hbody

lemma legible_argsJson : ∀ {args : List (Arg Expr)},
    (∀ x ∈ argsDoubles args, Json.Number.Returns x) → Json.LegibleItems (argsJson args)
  | [], _ => trivial
  | ⟨name, value⟩ :: rest, h => by
    have hvalue : value.toJson.Legible := legible_toJson fun x hx => h x (by simp [argsDoubles, hx])
    have hrest : Json.LegibleItems (argsJson rest) :=
      legible_argsJson fun x hx => h x (by simp [argsDoubles, hx])
    refine ⟨?_, hrest⟩
    simpa using And.intro (Symbol.legible_optionJson name) hvalue

lemma legible_formalsJson : ∀ {formals : List (Formal Expr)},
    (∀ x ∈ formalsDoubles formals, Json.Number.Returns x) → Json.LegibleItems (formalsJson formals)
  | [], _ => trivial
  | ⟨name, some default⟩ :: rest, h => by
    have hdefault : default.toJson.Legible :=
      legible_toJson fun x hx => h x (by simp [formalsDoubles, hx])
    have hrest : Json.LegibleItems (formalsJson rest) :=
      legible_formalsJson fun x hx => h x (by simp [formalsDoubles, hx])
    refine ⟨?_, hrest⟩
    simpa [Json.str, Json.Legible] using hdefault
  | ⟨name, none⟩ :: rest, h => by
    have hrest : Json.LegibleItems (formalsJson rest) :=
      legible_formalsJson fun x hx => h x (by simp [formalsDoubles, hx])
    refine ⟨?_, hrest⟩
    simp [Json.str, Json.Legible]

end

/-! ## Expressions -/

/-- No expression is written as `null`. -/
lemma toJson_ne_null (e : Expr) : e.toJson ≠ .null := by
  match e with
  | .null | .logical _ | .int _ | .double _ | .str _ | .symbol _ | .call .. | .function .. =>
    simp [toJson, Json.str, Json.record]

/-- Reading what is written for an expression is reading the value of its one field. -/
lemma ofJson?_field {nesting : Nat} {kind : String} {value : Json} :
    ofJson? (nesting + 1) (.record [(kind, value)]) = match kind with
      | "Null" => match value with | .null => some .null | _ => none
      | "Logical" => value.bool?.map .logical
      | "Int" => value.int32?.map .int
      | "Double" => value.double?.map .double
      | "Str" => value.string?.map .str
      | "Symbol" => (Symbol.ofJson? value).map .symbol
      | "Call" => callOfJson? nesting value
      | "Function" => functionOfJson? nesting value
      | _ => none := by
  rw [ofJson?.eq_def]
  rfl

end Expr

/-- A 32-bit integer is read back. -/
lemma Json.int32?_ofInt (n : Int32) : (Json.number (.ofInt n.toInt)).int32? = some n := by
  have hle := n.minValue_le_toInt
  have hge := n.toInt_le
  simp only [int32?, int?, Number.toInt?_ofInt, Option.bind_eq_bind, Option.bind_some,
    if_pos (And.intro hle hge), Int32.ofInt_toInt]

/-- An optional name is read back. -/
lemma Symbol.ofOptionalJson?_optionJson (name : Option Symbol) :
    Symbol.ofOptionalJson? (some (Symbol.optionJson name)) = some name := by
  match name with
  | none => rfl
  | some s => rfl

namespace Expr

mutual

/-- An expression is read back, if it nests no more than is accepted and its doubles survive. -/
theorem ofJson?_toJson : ∀ {e : Expr} {n : Nat}, (∀ x ∈ e.doubles, Json.Number.Returns x) →
    e.toJson.nesting ≤ n → ofJson? n e.toJson = some e
  | .null, n, _, _ => by simp [toJson, Json.str, ofJson?]
  | .logical b, n + 1, _, _ => by simp [toJson, ofJson?_field, Json.bool?]
  | .int k, n + 1, _, _ => by simp [toJson, ofJson?_field, Json.int32?_ofInt]
  | .double x, n + 1, h, _ => by
    have hvalue := (h x (by simp [doubles])).value
    simp [toJson, ofJson?_field, Json.double?, hvalue]
  | .str s, n + 1, _, _ => by simp [toJson, ofJson?_field, Json.str, Json.string?]
  | .symbol s, n + 1, _, _ => by
    simp [toJson, ofJson?_field, Json.str, Json.string?, Symbol.ofJson?]
  | .call callee args, n, h, hn => by
    simp only [toJson, Json.nesting_field, Json.nesting_pair, Json.nesting] at hn
    obtain ⟨n, rfl⟩ : ∃ k, n = k + 3 := ⟨n - 3, by omega⟩
    have hcallee := ofJson?_toJson (e := callee) (n := n + 1)
      (fun x hx => h x (by simp [doubles, hx])) (by omega)
    have hargs := mapM_argOfJson? args (n := n) (fun x hx => h x (by simp [doubles, hx]))
      (by omega)
    simp [toJson, ofJson?_field, callOfJson?, Json.record?_pair, hcallee, argsOfJson?, hargs]
  | .function formals body, n, h, hn => by
    simp only [toJson, Json.nesting_field, Json.nesting_pair, Json.nesting] at hn
    obtain ⟨n, rfl⟩ : ∃ k, n = k + 3 := ⟨n - 3, by omega⟩
    have hformals := mapM_formalOfJson? formals (n := n)
      (fun x hx => h x (by simp [doubles, hx])) (by omega)
    have hbody := ofJson?_toJson (e := body) (n := n + 1) (fun x hx => h x (by simp [doubles, hx]))
      (by omega)
    simp [toJson, ofJson?_field, functionOfJson?, Json.record?_pair, hbody, formalsOfJson?,
      hformals]

/-- Arguments are read back. -/
theorem mapM_argOfJson? : ∀ (args : List (Arg Expr)) {n : Nat},
    (∀ x ∈ argsDoubles args, Json.Number.Returns x) → Json.itemsNesting (argsJson args) ≤ n →
    (argsJson args).mapM (argOfJson? n) = some args
  | [], _, _, _ => rfl
  | ⟨name, value⟩ :: rest, n, h, hn => by
    simp only [argsJson, Json.itemsNesting, Json.nesting_pair] at hn
    obtain ⟨n, rfl⟩ : ∃ k, n = k + 1 := ⟨n - 1, by omega⟩
    have hvalue := ofJson?_toJson (e := value) (n := n)
      (fun x hx => h x (by simp [argsDoubles, hx])) (by omega)
    have hrest := mapM_argOfJson? rest (n := n + 1)
      (fun x hx => h x (by simp [argsDoubles, hx])) (by omega)
    have harg : argOfJson? (n + 1) (.record [("name", Symbol.optionJson name),
        ("value", value.toJson)]) = some ⟨name, value⟩ := by
      simp [argOfJson?, Json.record?_pair, Symbol.ofOptionalJson?_optionJson, hvalue]
    simp [argsJson, harg, hrest]

/-- Formals are read back. -/
theorem mapM_formalOfJson? : ∀ (formals : List (Formal Expr)) {n : Nat},
    (∀ x ∈ formalsDoubles formals, Json.Number.Returns x) →
    Json.itemsNesting (formalsJson formals) ≤ n →
    (formalsJson formals).mapM (formalOfJson? n) = some formals
  | [], _, _, _ => rfl
  | ⟨name, none⟩ :: rest, n, h, hn => by
    simp only [formalsJson, Json.itemsNesting, Json.nesting_pair] at hn
    obtain ⟨n, rfl⟩ : ∃ k, n = k + 1 := ⟨n - 1, by omega⟩
    have hrest := mapM_formalOfJson? rest (n := n + 1)
      (fun x hx => h x (by simp [formalsDoubles, hx])) (by omega)
    have hformal : formalOfJson? (n + 1) (.record [("name", .str name.name), ("default", .null)])
        = some ⟨name, none⟩ := by
      simp [formalOfJson?, Json.record?_pair, Symbol.ofJson?, Json.str, Json.string?]
    simp [formalsJson, hformal, hrest]
  | ⟨name, some default⟩ :: rest, n, h, hn => by
    simp only [formalsJson, Json.itemsNesting, Json.nesting_pair] at hn
    obtain ⟨n, rfl⟩ : ∃ k, n = k + 1 := ⟨n - 1, by omega⟩
    have hdefault := ofJson?_toJson (e := default) (n := n)
      (fun x hx => h x (by simp [formalsDoubles, hx])) (by omega)
    have hrest := mapM_formalOfJson? rest (n := n + 1)
      (fun x hx => h x (by simp [formalsDoubles, hx])) (by omega)
    have hformal : formalOfJson? (n + 1) (.record [("name", .str name.name),
        ("default", default.toJson)]) = some ⟨name, some default⟩ := by
      have hnull := toJson_ne_null default
      simp only [formalOfJson?, Json.record?_pair (show "name" ≠ "default" by decide)]
      simp [Symbol.ofJson?, Json.str, Json.string?, hdefault]
    simp [formalsJson, hformal, hrest]

end

end Expr

/-! ## Programs -/

namespace Program

variable {p : Program}

/-- What is written for a program is legible, if its doubles are. -/
lemma legible_toJson (h : ∀ x ∈ p.doubles, Json.Number.Returns x) : p.toJson.Legible := by
  have hdefinitions : ∀ ds : List Definition,
      (∀ x ∈ ds.flatMap fun d => d.function.toExpr.doubles, Json.Number.Returns x) →
      Json.LegibleItems (ds.map fun d =>
        .record [("name", .str d.name.name), ("function", d.function.toJson)]) := by
    intro ds hds
    induction ds with
    | nil => trivial
    | cons d ds ih =>
      have hfunction : d.function.toExpr.toJson.Legible :=
        Expr.legible_toJson fun x hx => hds x (by simp [hx])
      have hrest := ih fun x hx => hds x (List.mem_append_right _ hx)
      refine ⟨?_, hrest⟩
      simp only [Function.toExpr, Expr.toJson, Json.legible_field] at hfunction
      simpa [Json.str, Json.Legible, Function.toJson] using hfunction
  have hbody : p.body.toJson.Legible :=
    Expr.legible_toJson fun x hx => h x (List.mem_append_right _ hx)
  simp only [toJson, Json.legible_pair]
  exact ⟨hdefinitions _ fun x hx => h x (List.mem_append_left _ hx), hbody⟩

/-- A function literal is read back. -/
lemma function_ofJson?_toJson {f : Function} {n : Nat}
    (h : ∀ x ∈ f.toExpr.doubles, Json.Number.Returns x) (hn : f.toJson.nesting ≤ n) :
    Function.ofJson? n f.toJson = some f := by
  have hread := Expr.ofJson?_toJson (e := f.toExpr) (n := n + 1) h (by
    simpa [Function.toExpr, Expr.toJson, Function.toJson] using hn)
  have hliteral : Expr.functionOfJson? n f.toJson = some (.function f.formals f.body) := by
    simpa only [Function.toExpr, Expr.toJson, Function.toJson, Expr.ofJson?_field] using hread
  simp [Function.ofJson?, hliteral]

/-- Definitions are read back. -/
lemma mapM_definitionOfJson? (ds : List Definition) {n : Nat}
    (h : ∀ x ∈ ds.flatMap fun d => d.function.toExpr.doubles, Json.Number.Returns x)
    (hn : Json.itemsNesting (ds.map fun d =>
      .record [("name", .str d.name.name), ("function", d.function.toJson)]) ≤ n) :
    (ds.map fun d => Json.record [("name", .str d.name.name), ("function", d.function.toJson)]).mapM
      (Definition.ofJson? n) = some ds := by
  induction ds with
  | nil => rfl
  | cons d ds ih =>
    simp only [List.map_cons, Json.itemsNesting, Json.nesting_pair] at hn
    obtain ⟨n, rfl⟩ : ∃ k, n = k + 1 := ⟨n - 1, by omega⟩
    have hfunction := function_ofJson?_toJson (f := d.function) (n := n)
      (fun x hx => h x (by simp [hx])) (by omega)
    have hdefinition : Definition.ofJson? (n + 1) (.record [("name", .str d.name.name),
        ("function", d.function.toJson)]) = some d := by
      simp [Definition.ofJson?, Json.record?_pair, Symbol.ofJson?, Json.str, Json.string?,
        hfunction]
    have hrest := ih (fun x hx => h x (List.mem_append_right _ hx)) (by omega)
    simp [hdefinition, hrest]

/-- A program is the one that its JSON form spells. -/
lemma ofJson?_toJson {n : Nat} (h : ∀ x ∈ p.doubles, Json.Number.Returns x)
    (hn : p.toJson.nesting ≤ n) : ofJson? n p.toJson = some p := by
  simp only [toJson, Json.nesting_pair, Json.nesting] at hn
  obtain ⟨n, rfl⟩ : ∃ k, n = k + 2 := ⟨n - 2, by omega⟩
  have hdefinitions := mapM_definitionOfJson? p.definitions (n := n)
    (fun x hx => h x (List.mem_append_left _ hx)) (by omega)
  have hbody := Expr.ofJson?_toJson (e := p.body) (n := n + 1)
    (fun x hx => h x (List.mem_append_right _ hx)) (by omega)
  simp [toJson, ofJson?, Json.record?_pair, definitionsOfJson?, hdefinitions, hbody]

/-- **A program is read back from what was written for it**, if its JSON form nests no more objects
and arrays than a reader accepts and each of its doubles is one that the number layer writes and
reads back. -/
theorem read?_write (p : Program) (hnesting : p.toJson.nesting ≤ maxNesting)
    (hdoubles : ∀ x ∈ p.doubles, Json.Number.Returns x) : read? p.write = some p := by
  have hread : Json.read? p.write = some p.toJson := Json.read?_pretty (legible_toJson hdoubles)
  simp [read?, hread, ofJson?_toJson hdoubles hnesting]

/-- A definition with a default and a `...` without, a double, a text of characters that are
escaped, and a name that is no name of the language. -/
theorem read?_write_escapes :
    let p : Program :=
      { definitions := [⟨⟨"f"⟩, ⟨[⟨⟨"x"⟩, some (.double 1.5)⟩, ⟨.ellipsis, none⟩], .symbol ⟨"x"⟩⟩⟩]
        body := .call (.function [] .null)
          [⟨none, .int (-1)⟩, ⟨some ⟨"a \"b"⟩, .str "\\\n\x01é"⟩, ⟨none, .double (-0.0)⟩] }
    p.toJson.nesting ≤ maxNesting ∧ (∀ x ∈ p.doubles, Json.Number.Returns x) ∧
      read? p.write = some p := by
  intro p
  have hnesting : p.toJson.nesting ≤ maxNesting := by decide
  have hdoubles : ∀ x ∈ p.doubles, Json.Number.Returns x := by
    intro x hx
    obtain rfl | rfl : x = 1.5 ∨ x = -0.0 := by
      simpa [p, doubles, Function.toExpr, Expr.doubles, Expr.formalsDoubles,
        Expr.argsDoubles] using hx
    · exact ⟨by decide +kernel, by decide +kernel⟩
    · exact ⟨by decide +kernel, by decide +kernel⟩
  exact ⟨hnesting, hdoubles, read?_write p hnesting hdoubles⟩

end Program

end CallByNeed
