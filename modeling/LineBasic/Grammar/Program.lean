import LineBasic.Grammar.Statement

/-!
# Grammar of programs

A program is parsed statement by statement up to the end of the listing. Each step reports
what it found, so that a statement can be used before the rest is parsed.
-/

namespace LineBasic

/-- One step of the parse of a program. -/
structure Step where
  /-- The statement, or nothing for a remark, an empty statement or one that was given up. -/
  statement : Option Statement
  /-- Whether there has been a diagnostic so far. -/
  flagged : Bool

namespace Grammar

/-- At most `limit` steps. -/
def stepsWithin : (limit : Nat) → Cursor → List Step × Cursor
  | 0, cursor => ([], cursor)
  | limit + 1, cursor =>
    if cursor.current.kind = .eof then
      ([], cursor)
    else
      let (found, next) := statement maxNesting cursor
      let (steps, last) := stepsWithin limit next.advance
      (⟨found, next.hasDiagnostics⟩ :: steps, last)

/-- The steps from the current token to the end of the listing. -/
def steps (cursor : Cursor) : List Step × Cursor :=
  stepsWithin cursor.tokens.length cursor

end Grammar

end LineBasic
