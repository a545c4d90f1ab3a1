import CallByNeed.CommandLine

/-!
# The program

Reads the command line and the files, and prints the answer.
-/

namespace CallByNeed

/-- The text of a file. -/
def readText (path : String) : IO FileText := do
  try
    let bytes ← IO.FS.readBinFile path
    match String.fromUTF8? bytes with
    | some text => return .ok text
    | none => return .error .notText
  catch e =>
    match e with
    | .noFileOrDirectory .. => return .error .notFound
    | .inappropriateType .. => return .error .directory
    | e => return .error (.other (toString e))

/-- The environment variables that matter. -/
def settingNames : List String := ["RILL_TRACE", "RILL_MAX_DEPTH", "RILL_PARALLEL"]

/-- Answers a command line: prints the report, with the journal in front if it is asked for. -/
def serve (args : List String) : IO UInt32 := do
  let settings ← settingNames.mapM fun name => return (name, ← IO.getEnv name)
  let lookup (name : String) : Option String := (settings.lookup name).join
  let report ← CommandLine.answer readText lookup evaluationBound args
  let flags := CommandLine.Flags.ofArgs args
  if flags.trace || flags.verbose then
    let level := if flags.trace then LogLevel.trace else LogLevel.debug
    for line in Journal.lines report.journal level do IO.eprintln line
  for line in report.out do IO.println line
  for line in report.err do IO.eprintln line
  return UInt32.ofNat report.code

end CallByNeed

/-- Answers the command line. -/
def main (args : List String) : IO UInt32 := CallByNeed.serve args
