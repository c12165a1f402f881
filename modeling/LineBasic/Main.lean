import LineBasic.Command.Run

/-!
# The command

Reads arguments, files and the standard input, and does what the outcome of a run says.
Everything that is decided is decided by the modules below `Command`.
-/

namespace LineBasic.Command

/-- Why an operation of the system failed, as the system words it. -/
def systemReason : IO.Error → String
  | .noFileOrDirectory _ _ _ => PathFault.missing.text
  | .inappropriateType _ 20 _ => PathFault.notFolder.text
  | .inappropriateType _ 21 _ => PathFault.isFolder.text
  | .invalidArgument _ 36 _ => PathFault.tooLong.text
  | .permissionDenied _ code _ => "Permission denied (os error " ++ toString code ++ ")"
  | error => toString error

/-- Opens an input and reads it up to its end or its first failure. -/
def readInput (path : String) : IO (Except String Delivery) := do
  match ← (IO.FS.Handle.mk path .read).toBaseIO with
  | .error fault => return .error (systemReason fault)
  | .ok handle =>
    match ← handle.readBinToEnd.toBaseIO with
    | .error fault => return .ok (.ofReads [.failed (systemReason fault)])
    | .ok bytes => return .ok (.ofBytes bytes.toList)

/-- Prints what an outcome holds and gives its exit status. -/
def printOutcome (outcome : Outcome) : IO UInt32 := do
  IO.print outcome.stdout
  (← IO.getStdout).flush
  IO.eprint outcome.stderr
  return outcome.exit.toUInt32

/-- Compiles one file. -/
def compilePath (settings : Settings) (path : String) : IO UInt32 := do
  match ← readInput path with
  | .error reason => printOutcome (cannotOpen path reason)
  | .ok delivery =>
    let report := compileFile settings path delivery
    match report.file with
    | none => printOutcome report.outcome
    | some (file, text) =>
      match ← (IO.FS.writeFile file text).toBaseIO with
      | .error fault => printOutcome (report.cannotWrite file (systemReason fault))
      | .ok () => printOutcome report.outcome

/-- Answers one line after another. -/
partial def converse (settings : Settings) (color : Bool) (input output : IO.FS.Stream) :
    IO UInt32 := do
  output.putStr Session.prompt
  output.flush
  match ← input.getLine.toBaseIO with
  | .error _ =>
    IO.eprintln ("Error: " ++ Session.notUtf8)
    return 1
  | .ok "" =>
    output.putStr "\n"
    return 0
  | .ok text =>
    for line in Session.lines (Utf8.encode text) do
      let turn := Session.turn settings.style color line
      output.putStr (turn.text (some settings.logLevel))
    converse settings color input output

/-- Holds a session on the standard streams, in colour if the output is a terminal. -/
def interact (settings : Settings) : IO UInt32 := do
  let output ← IO.getStdout
  let color ← output.isTty
  output.putStr Session.banner
  converse settings color (← IO.getStdin) output

/-- Says why the command does not run. -/
def refuse : Refusal → IO UInt32
  | .displayHelp => do
    IO.print usage
    return 0
  | .displayVersion => do
    IO.print versionText
    return 0
  | refusal => do
    IO.eprint ("error: " ++ refusal.message ++ "\n\n" ++ usage)
    return 2

end LineBasic.Command

/-- The entry point of the command. -/
def main (arguments : List String) : IO UInt32 :=
  match LineBasic.Command.Settings.ofArguments arguments with
  | .error refusal => LineBasic.Command.refuse refusal
  | .ok settings =>
    match settings.input with
    | some path => LineBasic.Command.compilePath settings path
    | none => LineBasic.Command.interact settings
