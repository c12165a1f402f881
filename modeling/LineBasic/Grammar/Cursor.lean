import LineBasic.Grammar.Journal

/-!
# Where a parse stands

A cursor sees two tokens, the current one and the one after it. Beyond the last token it
sees the end token for ever. It also holds the arrays declared so far and the journal.
-/

namespace LineBasic

/-- Where a parse stands. -/
structure Cursor where
  /-- The tokens left before the end of the listing, the current one first. -/
  tokens : List Token
  /-- Where the listing ends. -/
  finish : Location
  /-- The arrays declared so far and their declarations, the latest first. -/
  arrays : List (String × Location)
  /-- What happened so far, the latest first. -/
  journal : List Entry
  deriving DecidableEq, Repr

namespace Cursor

/-- A cursor on the first of some tokens, the arrays in `arrays` being declared. -/
def start (tokens : List Token) (finish : Location) (arrays : List (String × Location)) : Cursor :=
  ⟨tokens, finish, arrays, []⟩

/-- The end token of the listing. -/
def endToken (cursor : Cursor) : Token := .endAt cursor.finish

/-- The current token. -/
def current (cursor : Cursor) : Token :=
  cursor.tokens.headD cursor.endToken

/-- The token after the current one. -/
def peek (cursor : Cursor) : Token :=
  cursor.tokens.tail.headD cursor.endToken

/-- Whether the token after the current one is of the kind given. -/
def peekIs (kind : Token.Kind) (cursor : Cursor) : Bool :=
  cursor.peek.kind = kind

/-- The cursor on the next token. -/
def advance (cursor : Cursor) : Cursor :=
  { cursor with tokens := cursor.tokens.tail }

/-- The cursor past a colon, if one comes next. A colon that ends a statement belongs to it. -/
def skipSeparator (cursor : Cursor) : Cursor :=
  if cursor.peekIs (.sym .colon) then cursor.advance else cursor

/-- The tokens from the one that the next terminator follows; those before it are given up. -/
def beforeTerminator : List Token → List Token
  | token :: next :: rest =>
    if next.kind.isTerminator then token :: next :: rest else beforeTerminator (next :: rest)
  | tokens => tokens

/-- The cursor at the end of the statement that it is in: on the colon that ends it, or else
on the last token before a line number or the end. -/
def synchronize (cursor : Cursor) : Cursor :=
  if cursor.current.kind = .sym .colon then cursor
  else { cursor with tokens := beforeTerminator cursor.tokens }.skipSeparator

/-- The cursor with one more event in its journal. -/
def note (cursor : Cursor) (event : Event) : Cursor :=
  { cursor with journal := ⟨cursor.tokens.length, event⟩ :: cursor.journal }

/-- The last declaration of an array. -/
def declaration? (cursor : Cursor) (name : String) : Option Location :=
  cursor.arrays.lookup name

/-- Whether a name is that of an array. -/
def isArray (cursor : Cursor) (name : String) : Bool :=
  (cursor.declaration? name).isSome

/-- The cursor once an array is declared, which the journal tells. -/
def declare (cursor : Cursor) (name : String) (loc : Location) (dimensions : Nat) : Cursor :=
  let event : Event :=
    match cursor.declaration? name with
    | some previous => .redeclared name loc previous
    | none => .declared name dimensions
  { cursor with arrays := (name, loc) :: cursor.arrays }.note event

/-- The diagnostics so far, in the order in which they arose. -/
def diagnostics (cursor : Cursor) : List Diagnostic :=
  (cursor.journal.filterMap (·.event.diagnostic?)).reverse

/-- Whether there is a diagnostic so far. -/
def hasDiagnostics (cursor : Cursor) : Bool :=
  cursor.journal.any (·.event.diagnostic?.isSome)

end Cursor

end LineBasic
