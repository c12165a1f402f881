import LineBasic.Grammar.Cursor

/-!
# Parsers

A parser moves a cursor and gives a value or a diagnostic. A failing parser leaves the
cursor where it failed. A parser starts with its first token as the current one and ends
with its last token as the current one.

Repetition is bounded by the number of tokens left, which every round of a loop reduces.
-/

namespace LineBasic

/-- A parser of values of type `α`. -/
abbrev Parse (α : Type) := EStateM Diagnostic Cursor α

namespace Parse

variable {α : Type}

/-- Fails. -/
def fail (cause : Cause) (loc : Location) : Parse α :=
  throw ⟨cause, loc⟩

/-- The current token. -/
def current : Parse Token :=
  return (← get).current

/-- The token after the current one. -/
def peek : Parse Token :=
  return (← get).peek

/-- Moves to the next token and gives it. -/
def advance : Parse Token := do
  modify Cursor.advance
  current

/-- Moves to the next token, which has to be of the kind given, and gives it. -/
def expect (kind : Token.Kind) : Parse Token := do
  let next ← peek
  if next.kind = kind then advance else fail (.unexpected kind next.kind) next.loc

/-- Takes in the colon that ends a statement, if there is one. -/
def skipSeparator : Parse Unit :=
  modify Cursor.skipSeparator

/-- A step of the cursor that cannot fail, as a parser. -/
def ofStep (step : Cursor → α × Cursor) : Parse α := fun cursor =>
  let (value, next) := step cursor
  .ok value next

/-- At most `limit` items, as long as `more` holds. -/
def manyWithin (more : Cursor → Bool) (item : Parse α) : (limit : Nat) → Parse (List α)
  | 0 => return []
  | limit + 1 => do
    if more (← get) then
      let head ← item
      let tail ← manyWithin more item limit
      return head :: tail
    else
      return []

/-- Items as long as `more` holds. -/
def many (more : Cursor → Bool) (item : Parse α) : Parse (List α) := do
  manyWithin more item (← get).tokens.length

/-- Items with commas between them, at least one. -/
def commaList (item : Parse α) : Parse (List α) := do
  let head ← item
  let tail ← many (·.peekIs (.sym .comma)) do
    let _ ← advance
    item
  return head :: tail

/-- At most `limit` steps from a value, as long as `more` holds. -/
def iterateWithin (more : Cursor → Bool) (step : α → Parse α) : (limit : Nat) → α → Parse α
  | 0, value => return value
  | limit + 1, value => do
    if more (← get) then
      let next ← step value
      iterateWithin more step limit next
    else
      return value

/-- Steps from a value as long as `more` holds. -/
def iterate (more : Cursor → Bool) (step : α → Parse α) (value : α) : Parse α := do
  iterateWithin more step (← get).tokens.length value

end Parse

end LineBasic
