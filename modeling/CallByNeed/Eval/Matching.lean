import CallByNeed.Eval.Task

/-!
# Matching arguments with formals

Arguments that carry the name of a formal go to it, wherever they stand. The arguments without a
name then fill the formals before `...` that are still open, from left to right. Whatever is left
belongs to `...`, in order; without a `...` nothing may be left.
-/

namespace CallByNeed

namespace Matching

/-- The argument carries the name of a formal other than `...`. -/
def isNamed (formals : List Symbol) (a : Arg Value) : Bool :=
  match a.name with
  | some n => !n.isEllipsis && formals.contains n
  | none => false

/-- The first name that is among those seen before it. -/
def repeatedAfter? (seen : List Symbol) : List Symbol → Option Symbol
  | [] => none
  | n :: rest => if seen.contains n then some n else repeatedAfter? (n :: seen) rest

/-- The first name that occurs a second time. -/
def repeated? (names : List Symbol) : Option Symbol := repeatedAfter? [] names

/-- The first argument without a name, and the others. -/
def takeUnnamed : ArgList → Option (Value × ArgList)
  | [] => none
  | a :: rest =>
    match a.name with
    | none => some (a.value, rest)
    | some _ => (takeUnnamed rest).map fun found => (found.1, a :: found.2)

/-- The argument with a name, and the others. -/
def takeNamed (name : Symbol) : ArgList → Option (Value × ArgList)
  | [] => none
  | a :: rest =>
    if a.name = some name then some (a.value, rest)
    else (takeNamed name rest).map fun found => (found.1, a :: found.2)

/-- What formals are given when only names count. -/
def byName (named : ArgList) : List Symbol → List (Option Value)
  | [] => []
  | f :: rest =>
    match if f.isEllipsis then none else takeNamed f named with
    | some (v, named) => some v :: byName named rest
    | none => none :: byName named rest

/-- What each formal is given, and the arguments that are left. Behind `...` only names count. -/
def fill (named others : ArgList) : List Symbol → List (Option Value) × ArgList
  | [] => ([], others)
  | f :: rest =>
    if f.isEllipsis then (byName named (f :: rest), others)
    else
      match takeNamed f named with
      | some (v, named) =>
        let (given, left) := fill named others rest
        (some v :: given, left)
      | none =>
        match takeUnnamed others with
        | some (v, others) =>
          let (given, left) := fill named others rest
          (some v :: given, left)
        | none =>
          let (given, left) := fill named others rest
          (none :: given, left)

/-- An argument as it was supplied. -/
def argText (a : Arg Value) : String :=
  match a.name with
  | some n => n.name ++ " = " ++ a.value.text
  | none => a.value.text

/-- What each formal is given, and what `...` is given. -/
def assign (formals : List Symbol) (args : ArgList) :
    Except ArgumentFault (List (Option Value) × ArgList) :=
  let named := args.filter (isNamed formals)
  let others := args.filter fun a => !isNamed formals a
  match repeated? (named.filterMap Arg.name) with
  | some name => .error (.matchedTwice name.name)
  | none =>
    let (given, left) := fill named others formals
    match formals.any Symbol.isEllipsis, left with
    | false, a :: _ => .error (.unused (argText a))
    | _, _ => .ok (given, left)

end Matching

/-! ## Binding -/

/-- Binds formals in an environment, in order. The first `...` is bound to the arguments left over
and any other one to none; a formal without an argument gets a promise of its default, to be
evaluated in the same environment, or one that fails. -/
def bindFormals (env : EnvId) : List (Formal CodeUnit) → List (Option Value) → ArgList → Eval Unit
  | f :: formals, given, left => do
    if f.name.isEllipsis then
      Eval.setVariable env .ellipsis (.dots left)
      bindFormals env formals given.tail []
    else
      let value ←
        match given.head?.join, f.default with
        | some v, _ => pure v
        | none, some unit => Eval.promise (.compiled unit env)
        | none, none => Eval.promise (.missing f.name)
      Eval.setVariable env f.name value
      bindFormals env formals given.tail left
  | [], _, _ => pure ()

/-- A new environment inside that of a closure, with the formals bound to the arguments. -/
def bindArguments (unit : FunctionUnit) (env : EnvId) (call : Call) (args : ArgList) :
    Eval EnvId := do
  match Matching.assign (unit.formals.map Formal.name) args with
  | .error fault => Eval.fail (.argumentCount call.text fault)
  | .ok (given, left) => do
    let frame ← Eval.child env
    bindFormals frame unit.formals given left
    return frame

/-- Applies a closure to arguments: they are matched first, and the body is executed one level
deeper. -/
def applyClosure (limit : Nat) (host : Host) (unit : FunctionUnit) (env : EnvId) (call : Call)
    (args : ArgList) : Eval Value := do
  let frame ← bindArguments unit env call args
  host.executeNested limit unit.body frame

end CallByNeed
