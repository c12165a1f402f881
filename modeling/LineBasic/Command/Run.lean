import LineBasic.Command.Arguments
import LineBasic.Command.Folder
import LineBasic.Session

/-!
# Runs of the command

What the command prints and writes, and how it ends, for given arguments, files and standard
input. With an input file it compiles that file; without one it holds a session over the
standard input. The log goes to the standard output, before the output it belongs to.
-/

namespace LineBasic.Command

/-- What a run leaves behind. -/
structure Outcome where
  /-- The exit status. -/
  exit : Nat
  /-- The standard output. -/
  stdout : String
  /-- The standard error output. -/
  stderr : String
  deriving DecidableEq, Repr

/-- What a run prints, and the text that it still has to write to a file. -/
structure Report where
  /-- What it prints, and how it ends if nothing goes wrong with the file. -/
  outcome : Outcome
  /-- The path and the text of the file. -/
  file : Option (String × String)
  deriving DecidableEq, Repr

/-- The message about something that failed, and why. -/
def failure (what reason : String) : String :=
  "Error: " ++ what ++ "\n\nCaused by:\n    " ++ reason ++ "\n"

/-- How a compilation is summed up in the log. -/
def summary (path : String) (compilation : Compilation) : Record :=
  ⟨.info, .command,
    path ++ ": " ++ toString compilation.program.length ++ " statement(s), "
      ++ toString compilation.diagnostics.length ++ " diagnostic(s)"⟩

/-- The run on an input that cannot be opened. -/
def cannotOpen (path reason : String) : Outcome :=
  ⟨1, "", failure ("cannot open " ++ path) reason⟩

/-- The run whose file cannot be written. -/
def Report.cannotWrite (report : Report) (path reason : String) : Outcome :=
  ⟨1, report.outcome.stdout, failure ("cannot write " ++ path) reason⟩

/-- The run on an input that delivers a listing. -/
def compileFile (settings : Settings) (path : String) (delivery : Delivery) : Report :=
  let compilation := Compilation.ofDelivery settings.style delivery
  let log := Record.lines settings.logLevel (compilation.records ++ [summary path compilation])
  if compilation.isClean then
    match settings.output with
    | some file => ⟨⟨0, log, ""⟩, some (file, compilation.output)⟩
    | none => ⟨⟨0, log ++ compilation.output, ""⟩, none⟩
  else
    ⟨⟨1, log, Diagnostic.report compilation.diagnostics⟩, none⟩

/-- The run without an input. -/
def session (settings : Settings) (color : Bool) (input : List UInt8) : Outcome :=
  let transcript := Session.run settings.style color input
  let stdout := transcript.text (some settings.logLevel)
  if transcript.complete then ⟨0, stdout, ""⟩
  else ⟨1, stdout, "Error: " ++ Session.notUtf8 ++ "\n"⟩

/-- What the command says about its version. -/
def versionText : String := "basic2c 0.1.0\n"

/-- A whole run: how it ends and the files after it. -/
def run (settings : Settings) (folder : Folder) (input : List UInt8) : Outcome × Folder :=
  match settings.input with
  | none => (session settings false input, folder)
  | some path =>
    match folder.read path with
    | .error fault => (cannotOpen path fault.text, folder)
    | .ok reads =>
      let report := compileFile settings path (.ofReads reads)
      match report.file with
      | none => (report.outcome, folder)
      | some (file, text) =>
        match folder.write file text with
        | .error fault => (report.cannotWrite file fault.text, folder)
        | .ok written => (report.outcome, written)

end LineBasic.Command
