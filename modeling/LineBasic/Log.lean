/-!
# Log records

What is told about a run besides its output. Each record has a level of severity, the part
of the program that it comes from and a text; a threshold keeps the records that are severe
enough.
-/

namespace LineBasic

/-- Levels of severity, the most severe first. -/
inductive Level where
  | warn
  | info
  | debug
  | trace
  deriving DecidableEq, Repr

namespace Level

/-- The place of a level among the others, the most severe being zero. -/
def rank : Level → Nat
  | warn => 0
  | info => 1
  | debug => 2
  | trace => 3

/-- Whether a threshold lets a level through. -/
def admits (threshold level : Level) : Bool :=
  level.rank ≤ threshold.rank

/-- The name of a level. -/
def text : Level → String
  | warn => "WARN"
  | info => "INFO"
  | debug => "DEBUG"
  | trace => "TRACE"

/-- The name of a level, filled up to the longest one. -/
def padded : Level → String
  | warn => "WARN "
  | info => "INFO "
  | debug => "DEBUG"
  | trace => "TRACE"

end Level

/-- The part of the program that a record comes from. -/
inductive Origin where
  | scanner
  | parser
  | declarations
  | statements
  | lowering
  | command
  deriving DecidableEq, Repr

/-- How an origin is named in log lines. -/
def Origin.text : Origin → String
  | scanner => "basic2c::parser::lexer"
  | parser => "basic2c::parser::parse"
  | declarations => "basic2c::parser::declarations"
  | statements => "basic2c::parser::statements"
  | lowering => "basic2c::render"
  | command => "basic2c"

/-- A log record. -/
structure Record where
  /-- How severe it is. -/
  level : Level
  /-- Where it comes from. -/
  origin : Origin
  /-- What it says. -/
  text : String
  deriving DecidableEq, Repr

namespace Record

/-- The records that a threshold lets through, in order. -/
def atLevel (threshold : Level) (records : List Record) : List Record :=
  records.filter (threshold.admits ·.level)

/-- The texts of the warnings, in order. -/
def warnings (records : List Record) : List String :=
  (atLevel .warn records).map (·.text)

/-- A record as a line of a log. -/
def line (record : Record) : String :=
  record.level.padded ++ " [" ++ record.origin.text ++ "] " ++ record.text ++ "\n"

/-- The lines of the records that a threshold lets through. -/
def lines (threshold : Level) (records : List Record) : String :=
  String.join ((atLevel threshold records).map line)

end Record

end LineBasic
