import LineBasic.Token

/-!
# Diagnostics

What can be wrong with a statement, the message that says so, and the report of all
diagnostics of a listing as a block of C comments.
-/

namespace LineBasic

/-- What is wrong. -/
inductive Cause where
  /-- Another kind of token has to come next. -/
  | unexpected (expected found : Token.Kind)
  /-- `ON` is followed by neither kind of jump. -/
  | noJump (found : Token.Kind)
  /-- No operand starts with this kind of token. -/
  | noOperand (found : Token.Kind)
  /-- A number that is not an integer in range. -/
  | badInteger (literal : String)
  /-- Something other than a plain name is called. -/
  | notCallable
  /-- A statement that only closes another one. -/
  | badStatement (literal : String)
  /-- A token that starts no statement. -/
  | badToken (literal : String)
  /-- A token that is none. -/
  | illegalToken (literal : String)
  /-- Statements and expressions stand too deep inside each other. -/
  | tooDeep (limit : Nat)
  deriving DecidableEq, Repr

namespace Cause

/-- The message for a cause. -/
def message : Cause → String
  | unexpected expected found =>
    "expected next token to be " ++ expected.text ++ ", got " ++ found.text ++ " instead"
  | noJump found => "expected next token to be GOTO or GOSUB, got " ++ found.text ++ " instead"
  | noOperand found => "no prefix parse function for " ++ found.text ++ " found"
  | badInteger literal => "could not parse " ++ Quoted.encode literal ++ " as integer"
  | notCallable => "could not parse call target as identifier"
  | badStatement literal => "invalid statement: " ++ literal
  | badToken literal => "got invalid token: " ++ literal
  | illegalToken literal => "illegal token: " ++ literal
  | tooDeep limit => "nesting deeper than " ++ toString limit ++ " levels"

end Cause

/-- Something wrong, and where. -/
structure Diagnostic where
  /-- What is wrong. -/
  cause : Cause
  /-- Where it is. -/
  loc : Location
  deriving DecidableEq, Repr

namespace Diagnostic

/-- The message of a diagnostic. -/
def message (diagnostic : Diagnostic) : String := diagnostic.cause.message

/-- The line of a diagnostic in a report. -/
def line (diagnostic : Diagnostic) : String :=
  "//  line " ++ diagnostic.loc.text ++ ": " ++ diagnostic.message ++ "\n"

/-- The report of some diagnostics: a heading, a line for each and an empty line. -/
def report (diagnostics : List Diagnostic) : String :=
  "// ERR: ========== parser ==========\n" ++ String.join (diagnostics.map line) ++ "\n"

end Diagnostic

end LineBasic
