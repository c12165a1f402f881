import LineBasic.Log
import LineBasic.Lowering.Style

/-!
# Command-line arguments

The settings that the arguments of the command make, or what is wrong with the arguments.
They are read from left to right and the first fault counts. A value that stands apart, be it
of `-o` or of the input, is checked only when the next argument has been recognised, so an
unknown argument right after it is the fault that counts.
-/

namespace LineBasic.Command

/-- What keeps the command from running. -/
inductive Refusal where
  /-- An argument that is none of the known ones. -/
  | unknownArgument
  /-- A value that is missing or empty. -/
  | invalidValue
  /-- A value for a flag that takes none. -/
  | tooManyValues
  /-- A flag or an option given twice. -/
  | argumentConflict
  /-- The user asks for help. -/
  | displayHelp
  /-- The user asks for the version. -/
  | displayVersion
  deriving DecidableEq, Repr

/-- What a refusal tells the user. -/
def Refusal.message : Refusal → String
  | unknownArgument => "unknown argument"
  | invalidValue => "a value is missing or empty"
  | tooManyValues => "a value is given to a flag that takes none"
  | argumentConflict => "an argument is given more than once"
  | displayHelp => "help was asked for"
  | displayVersion => "the version was asked for"

/-- How the command is used. -/
def usage : String :=
  "Usage: basic2c [OPTIONS] [INPUT]\n\n" ++
    "  [INPUT]               BASIC listing; without one a session starts\n" ++
    "  -o, --output FILE     write the C text to FILE\n" ++
    "      --standalone      write a whole C program\n" ++
    "      --return-stack    let subroutines nest\n" ++
    "      --relational-for  stop loops past their last value\n" ++
    "  -v, --verbose         log more, up to three times\n" ++
    "  -h, --help            show this text\n" ++
    "  -V, --version         show the version\n"

/-- The settings of the command. -/
structure Settings where
  /-- The listing to compile, or nothing for a session. -/
  input : Option String
  /-- The file to write, or nothing for the standard output. -/
  output : Option String
  /-- How often more log output was asked for, up to 255. -/
  verbose : Nat
  /-- Whether a whole program is to be written. -/
  standalone : Bool
  /-- Whether subroutines are to find the way back on a stack. -/
  returnStack : Bool
  /-- Whether loops are to stop when the counter has passed the last value. -/
  relationalFor : Bool
  deriving DecidableEq, Repr

namespace Settings

/-- The settings without any argument. -/
def initial : Settings := ⟨none, none, 0, false, false, false⟩

/-- The style that the settings ask for. -/
def style (settings : Settings) : Style :=
  { Style.standard with
    returnSlot := if settings.returnStack then .stack else .shared
    loopBound := if settings.relationalFor then .relational else .exact
    standalone := settings.standalone }

/-- The threshold of the log. -/
def logLevel (settings : Settings) : Level :=
  match settings.verbose with
  | 0 => .warn
  | 1 => .info
  | 2 => .debug
  | _ => .trace

end Settings

/-- Arguments that take no value. -/
inductive Flag where
  | standalone
  | returnStack
  | relationalFor
  | verbose
  | help
  | version
  deriving DecidableEq, Repr

/-- What an option can be. -/
inductive Choice where
  /-- A flag. -/
  | flag (flag : Flag)
  /-- The option that names the output. -/
  | output
  deriving DecidableEq, Repr

/-- The option with a long name. -/
def Choice.ofName? (name : String) : Option Choice :=
  [("standalone", flag .standalone), ("return-stack", flag .returnStack),
    ("relational-for", flag .relationalFor), ("verbose", flag .verbose), ("help", flag .help),
    ("version", flag .version), ("output", output)].lookup name

/-- The option with a short name. -/
def Choice.ofLetter? (letter : Char) : Option Choice :=
  [('v', flag .verbose), ('h', flag .help), ('V', flag .version), ('o', output)].lookup letter

/-- Puts a flag into the settings. -/
def Settings.setFlag (settings : Settings) : Flag → Except Refusal Settings
  | .standalone =>
    if settings.standalone then .error .argumentConflict
    else .ok { settings with standalone := true }
  | .returnStack =>
    if settings.returnStack then .error .argumentConflict
    else .ok { settings with returnStack := true }
  | .relationalFor =>
    if settings.relationalFor then .error .argumentConflict
    else .ok { settings with relationalFor := true }
  | .verbose => .ok { settings with verbose := min 255 (settings.verbose + 1) }
  | .help => .error .displayHelp
  | .version => .error .displayVersion

/-- Puts the output into the settings. -/
def Settings.setOutput (settings : Settings) (value : String) : Except Refusal Settings :=
  if settings.output.isSome then .error .argumentConflict
  else if value.isEmpty then .error .invalidValue
  else .ok { settings with output := some value }

/-- A value that has not been checked yet. -/
inductive Pending where
  /-- Nothing. -/
  | nothing
  /-- The output, whose value is still to come. -/
  | outputName
  /-- The output. -/
  | output (value : String)
  /-- The input. -/
  | input (value : String)
  deriving DecidableEq, Repr

/-- How far the arguments have been read. -/
structure Reading where
  /-- The settings so far. -/
  settings : Settings
  /-- The value that has not been checked yet. -/
  pending : Pending
  /-- Whether the input has been named. -/
  hasInput : Bool
  /-- Whether a double dash has been read, after which nothing is an option. -/
  plain : Bool
  deriving DecidableEq, Repr

namespace Reading

/-- Nothing read yet. -/
def initial : Reading := ⟨.initial, .nothing, false, false⟩

/-- The settings once the pending value has been checked. -/
def settle (reading : Reading) : Except Refusal Settings :=
  match reading.pending with
  | .nothing => .ok reading.settings
  | .outputName => .error .invalidValue
  | .output value => reading.settings.setOutput value
  | .input value =>
    if value.isEmpty then .error .invalidValue
    else .ok { reading.settings with input := some value }

/-- Continues with settings in which nothing is pending. -/
def resume (reading : Reading) (settings : Settings) : Reading :=
  { reading with settings := settings, pending := .nothing }

/-- Reads a flag. -/
def flag (reading : Reading) (flag : Flag) : Except Refusal Reading := do
  let settings ← reading.settle
  return reading.resume (← settings.setFlag flag)

/-- Reads the output with its value. -/
def outputValue (reading : Reading) (value : String) : Except Refusal Reading := do
  let settings ← reading.settle
  return reading.resume (← settings.setOutput value)

/-- Reads the output without its value. -/
def outputName (reading : Reading) : Except Refusal Reading := do
  let settings ← reading.settle
  return { reading.resume settings with pending := .outputName }

/-- Reads an option by its long name, with the value after the equals sign if there is one. -/
def long (reading : Reading) (name : String) (value : Option String) : Except Refusal Reading :=
  match Choice.ofName? name, value with
  | none, _ => .error .unknownArgument
  | some (.flag _), some _ => .error .tooManyValues
  | some (.flag flag), none => reading.flag flag
  | some .output, some value => reading.outputValue value
  | some .output, none => reading.outputName

/-- Reads options by their short names. What comes after the letter of the output is its
value, less an equals sign at the front. -/
def short (reading : Reading) : List Char → Except Refusal Reading
  | [] => .ok reading
  | letter :: rest =>
    match Choice.ofLetter? letter with
    | none => .error .unknownArgument
    | some (.flag flag) => do
      let reading ← reading.flag flag
      reading.short rest
    | some .output =>
      match rest with
      | [] => reading.outputName
      | '=' :: value => reading.outputValue (String.ofList value)
      | value => reading.outputValue (String.ofList value)

/-- Reads an argument that is no option: the value that is still to come, or the input. -/
def value (reading : Reading) (text : String) : Except Refusal Reading := do
  if reading.pending = .outputName ∧ ¬ reading.plain then
    return { reading with pending := .output text }
  else if reading.hasInput then
    throw .unknownArgument
  else
    let settings ← reading.settle
    return { reading.resume settings with pending := .input text, hasInput := true }

/-- Reads one argument. -/
def next (reading : Reading) (argument : String) : Except Refusal Reading :=
  if reading.plain then
    reading.value argument
  else
    match argument.toList with
    | ['-', '-'] => .ok { reading with plain := true }
    | '-' :: '-' :: text =>
      let name := text.takeWhile (· ≠ '=')
      let value := (text.dropWhile (· ≠ '=')).tail?
      reading.long (String.ofList name) (value.map String.ofList)
    | '-' :: letter :: rest => reading.short (letter :: rest)
    | _ => reading.value argument

end Reading

/-- The settings that some arguments make. -/
def Settings.ofArguments (arguments : List String) : Except Refusal Settings := do
  let reading ← arguments.foldlM Reading.next .initial
  reading.settle

end LineBasic.Command
