import CallByNeed.Config
import CallByNeed.Expr.Json

/-!
# Programs and settings in files

What a file holds is read elsewhere; here it becomes a program or settings, or an error that names
the file.
-/

namespace CallByNeed

/-- Why a file has no text. -/
inductive ReadError where
  | notFound
  | directory
  /-- The bytes are not UTF-8. -/
  | notText
  | other (reason : String)
deriving DecidableEq

/-- The reason in words. -/
def ReadError.message : ReadError → String
  | .notFound => "No such file or directory (os error 2)"
  | .directory => "Is a directory (os error 21)"
  | .notText => "stream did not contain valid UTF-8"
  | .other reason => reason

/-- The text of a file, or why it has none. -/
abbrev FileText := Except ReadError String

/-- Why a file gives nothing to work with. -/
inductive LoadError where
  | programUnreadable (path : String) (e : ReadError)
  | programMalformed (path : String)
  | configUnreadable (path : String) (e : ReadError)
  | configMalformed (path : String)
deriving DecidableEq

/-- The message of a load error. -/
def LoadError.message : LoadError → String
  | .programUnreadable path e => s!"cannot read {path}: {e.message}"
  | .programMalformed path => s!"invalid program {path}"
  | .configUnreadable path e => s!"cannot read config file `{path}`: {e.message}"
  | .configMalformed path => s!"invalid config file `{path}`"

/-- The program in a file. -/
def Program.ofFile (path : String) : FileText → Except LoadError Program
  | .error e => .error (.programUnreadable path e)
  | .ok text =>
    match Program.read? text with
    | some p => .ok p
    | none => .error (.programMalformed path)

/-- The settings in a file. -/
def Config.ofFile (path : String) : FileText → Except LoadError Config
  | .error e => .error (.configUnreadable path e)
  | .ok text =>
    match Config.read? text with
    | some c => .ok c
    | none => .error (.configMalformed path)

end CallByNeed
