import LineBasic.Compilation

/-!
# Interactive sessions

A session compiles its input line by line, each line as a listing of its own, and answers
with the C text or with the report of the diagnostics. It ends with its input, or at a line
that is not UTF-8.
-/

namespace LineBasic.Session

/-- What a session starts with. -/
def banner : String := "basic2c: a BASIC to C transpiler\n"

/-- What asks for a line. -/
def prompt : String := ">> "

/-- Why a session breaks off at a line that is not UTF-8. -/
def notUtf8 : String := "stream did not contain valid UTF-8"

/-- The lines of some bytes, where `line` holds the bytes of the first line so far, the latest
first. A line feed ends a line, and a carriage return right before it belongs to the end. What
comes after the last line feed is a line only if there is anything. -/
def linesAfter (line : List UInt8) : List UInt8 → List (List UInt8)
  | [] => if line.isEmpty then [] else [line.reverse]
  | b :: rest =>
    if b = 0x0A then
      let ended := if line.head? = some 0x0D then line.tail else line
      ended.reverse :: linesAfter [] rest
    else
      linesAfter (b :: line) rest

/-- The lines of some bytes. -/
def lines (bytes : List UInt8) : List (List UInt8) :=
  linesAfter [] bytes

/-- A text in red on a terminal. -/
def red (text : String) : String :=
  "\x1b[38;5;9m" ++ text ++ "\x1b[39m"

/-- The answer to one line. -/
structure Turn where
  /-- What is logged before the answer. -/
  records : List Record
  /-- The answer. -/
  reply : String
  deriving DecidableEq, Repr

/-- The answer to a line: its C text, or the report of its diagnostics, in red if `color` is
set. -/
def turn (style : Style) (color : Bool) (line : List UInt8) : Turn :=
  let compilation := compile style line
  let report := Diagnostic.report compilation.diagnostics
  let reply :=
    if compilation.isClean then compilation.output else if color then red report else report
  ⟨compilation.records, reply⟩

/-- What happens in a session. -/
structure Transcript where
  /-- The answers, in order. -/
  turns : List Turn
  /-- Whether the session came to the end of its input. -/
  complete : Bool
  deriving DecidableEq, Repr

/-- The session over some lines. -/
def overLines (style : Style) (color : Bool) : List (List UInt8) → Transcript
  | [] => ⟨[], true⟩
  | line :: lines =>
    match Utf8.decode? line with
    | none => ⟨[], false⟩
    | some _ =>
      let rest := overLines style color lines
      ⟨turn style color line :: rest.turns, rest.complete⟩

/-- The session over some bytes. -/
def run (style : Style) (color : Bool) (bytes : List UInt8) : Transcript :=
  overLines style color (lines bytes)

/-- What a turn prints after its prompt: the log, if there is a threshold, and the answer. -/
def Turn.text (log : Option Level) (turn : Turn) : String :=
  match log with
  | some threshold => Record.lines threshold turn.records ++ turn.reply
  | none => turn.reply

/-- Everything that a session prints. -/
def Transcript.text (log : Option Level) (transcript : Transcript) : String :=
  banner ++ String.join (transcript.turns.map fun turn => prompt ++ turn.text log) ++ prompt
    ++ if transcript.complete then "\n" else ""

end LineBasic.Session
