import LineBasic.Grammar.Expression
import LineBasic.Statement

/-!
# Grammar of statements

Each statement is recognised by its first token. A statement that fails is given up: its
diagnostic goes into the journal and parsing goes on after the next colon or at the next line
number, so one run finds as many faults as it can.

The rules take the parser `expr` of the expressions and the step `inner` over the statements
one level further down.
-/

namespace LineBasic.Grammar

open Parse

/-- The statement that a rule finds, or nothing if there is none or if the rule fails. What
came of it goes into the journal. -/
def recover (rule : Parse (Option Statement)) (cursor : Cursor) : Option Statement × Cursor :=
  match rule cursor with
  | .ok (some statement) next => (some statement, next.note (.parsed statement.loc))
  | .ok none next => (none, next)
  | .error diagnostic next => (none, (next.note (.recovered diagnostic)).synchronize)

/-- A label to jump to, after the current token: a number, or a name after an asterisk. -/
def jumpTarget : Parse JumpTarget := do
  let next ← peek
  match next.kind with
  | .sym .asterisk =>
    let star ← advance
    let name ← expect .ident
    return ⟨name.literal, star.loc⟩
  | _ =>
    let number ← expect .num
    return ⟨number.literal, number.loc⟩

/-- A line number, with the data of the line if that comes next. -/
def lineNumber : Parse Statement := do
  let token ← current
  if (← peek).kind = .word .data then
    let data ← advance
    skipSeparator
    return .lineNumber token.literal (some ⟨token.literal, data.literal, data.loc⟩) token.loc
  else
    return .lineNumber token.literal none token.loc

/-- A named label. -/
def label : Parse Statement := do
  let star ← current
  let name ← expect .ident
  skipSeparator
  return .label name.literal star.loc

/-- The size of an array in one dimension, after the current token. -/
def arraySize : Parse IntLit := do
  let _ ← expect .num
  integer

/-- One array of a declaration, after the current token. It counts as declared from here on. -/
def arrayDecl : Parse ArrayDecl := do
  let name ← expect .ident
  let _ ← expect (.sym .lparen)
  let sizes ← commaList arraySize
  let _ ← expect (.sym .rparen)
  modify (·.declare name.literal name.loc sizes.length)
  return ⟨name.literal, sizes, name.loc⟩

/-- A declaration of arrays. -/
def dim : Parse Statement := do
  let token ← current
  let arrays ← commaList arrayDecl
  skipSeparator
  return .dim arrays token.loc

/-- A jump. -/
def goto : Parse Statement := do
  let token ← current
  let target ← jumpTarget
  skipSeparator
  return .goto target token.loc

/-- A jump to a subroutine. -/
def gosub : Parse Statement := do
  let token ← current
  let target ← jumpTarget
  skipSeparator
  return .gosub target token.loc

/-- The way back from a subroutine. -/
def ret : Parse Statement := do
  let token ← current
  skipSeparator
  return .ret token.loc

/-- The kind of jump after the selecting number of `ON`. -/
def jumpKind : Parse JumpKind := do
  let next ← peek
  match next.kind with
  | .word .goto =>
    let _ ← advance
    return .goto
  | .word .gosub =>
    let _ ← advance
    return .gosub
  | found => fail (.noJump found) next.loc

/-- Whether a kind of token ends the arm after `THEN`. -/
def endsThen (kind : Token.Kind) : Bool :=
  kind = .eof ∨ kind = .lineNo ∨ kind = .word .else_

/-- Whether a kind of token ends the arm after `ELSE`. -/
def endsElse (kind : Token.Kind) : Bool :=
  kind = .eof ∨ kind = .lineNo

/-- Whether a kind of token ends the body of a loop. -/
def endsBody (kind : Token.Kind) : Bool :=
  kind = .eof ∨ kind = .word .next

section Blocks

variable (inner : Cursor → Option Statement × Cursor)

/-- At most `limit` statements after the current token, up to one that `ends` the block. -/
def blockWithin (ends : Token.Kind → Bool) : (limit : Nat) → Cursor → List Statement × Cursor
  | 0, cursor => ([], cursor)
  | limit + 1, cursor =>
    if ends cursor.peek.kind then
      ([], cursor)
    else
      let (head, next) := inner cursor.advance
      let (tail, last) := blockWithin ends limit next
      (head.toList ++ tail, last)

/-- The statements after the current token, up to the next token that `ends` the block or up
to the end of the listing. -/
def block (ends : Token.Kind → Bool) : Parse (List Statement) :=
  ofStep fun cursor => blockWithin inner ends cursor.tokens.length cursor

/-- An arm of an `IF`, with `THEN` or `ELSE` as the current token. A label right after it is
a jump; if statements follow, the jump is the first of them. -/
def branch (ends : Token.Kind → Bool) : Parse Branch := do
  let token ← current
  let next ← peek
  if next.kind = .num ∨ next.kind = .sym .asterisk then
    let target ← jumpTarget
    skipSeparator
    match ← block inner ends with
    | [] => return .goto target
    | rest => return .block (.goto target token.loc :: rest)
  else
    return .block (← block inner ends)

end Blocks

section Rules

variable (expr : Nat → Parse Expr) (inner : Cursor → Option Statement × Cursor)

/-- A choice between two arms. -/
def cond : Parse Statement := do
  let token ← current
  let condition ← nextExpression expr openPower
  let _ ← expect (.word .then_)
  let consequence ← branch inner endsThen
  if (← peek).kind = .word .else_ then
    let _ ← advance
    let alternative ← branch inner endsElse
    return .cond condition consequence (some alternative) token.loc
  else
    return .cond condition consequence none token.loc

/-- A jump to one of several labels. -/
def on : Parse Statement := do
  let token ← current
  let value ← nextExpression expr openPower
  let kind ← jumpKind
  let targets ← commaList jumpTarget
  skipSeparator
  return .on value kind targets token.loc

/-- The step of a loop that starts at `loc`. Without one it is 1. -/
def loopStep (loc : Location) : Parse Expr := do
  if (← peek).kind = .word .step then
    let _ ← advance
    nextExpression expr openPower
  else
    return .int ⟨1, "1", loc⟩

/-- The end of the head of a loop: a colon, which is taken in, or a line number. -/
def loopHeadEnd : Parse Unit := do
  if (← peek).kind = .lineNo then
    return ()
  else
    let _ ← expect (.sym .colon)

/-- The end of a loop over `counter`: `NEXT`, with the name of a counter or without. -/
def loopEnd (counter : String) : Parse Unit := do
  let _ ← expect (.word .next)
  if (← peek).kind = .ident then
    let name ← advance
    if name.literal ≠ counter then
      modify (·.note (.mismatched name.literal name.loc counter))
  skipSeparator

/-- A counted loop. -/
def loop : Parse Statement := do
  let token ← current
  let counter ← expect .ident
  let _ ← expect (.sym .eq)
  let first ← nextExpression expr openPower
  let _ ← expect (.word .to_)
  let last ← nextExpression expr openPower
  let step ← loopStep expr token.loc
  loopHeadEnd
  let body ← block inner endsBody
  loopEnd counter.literal
  return .loop counter.literal first last step body token.loc

/-- An assignment to what the token and the subscripts before the equals sign name. -/
def assignTo (target : Token) (indices : List Expr) : Parse Statement := do
  let _ ← expect (.sym .eq)
  let value ← nextExpression expr openPower
  skipSeparator
  return .assign target.literal indices value target.loc

/-- An assignment to an element of an array. -/
def assignElement : Parse Statement := do
  let target ← current
  let _ ← expect (.sym .lparen)
  let indices ← subscripts expr
  assignTo expr target indices

/-- A call with its arguments in parentheses, bare or missing. -/
def call : Parse Statement := do
  let function ← current
  let next ← peek
  let arguments ←
    if next.kind.isTerminator then
      pure []
    else if next.kind = .sym .lparen then do
      let _ ← advance
      arguments expr
    else
      expressionList expr
  skipSeparator
  return .call function.literal arguments function.loc

/-- A statement that starts with a name: an assignment, if an equals sign follows or if the
name is that of an array, else a call. -/
def namedStatement : Parse Statement := do
  let token ← current
  if (← peek).kind = .sym .eq then
    assignTo expr token []
  else if (← get).isArray token.literal then
    assignElement expr
  else
    call expr

/-- The statement that starts with the current token. A remark and a colon on its own are no
statement. -/
def statementRule : Parse (Option Statement) := do
  let token ← current
  match token.kind with
  | .word .rem =>
    skipSeparator
    return none
  | .sym .colon => return none
  | .lineNo => some <$> lineNumber
  | .sym .asterisk => some <$> label
  | .word .dim => some <$> dim
  | .word .if_ => some <$> cond expr inner
  | .word .on => some <$> on expr
  | .word .goto => some <$> goto
  | .word .gosub => some <$> gosub
  | .word .return_ => some <$> ret
  | .word .for_ => some <$> loop expr inner
  | .ident => some <$> namedStatement expr
  | .word .next => fail (.badStatement token.literal) token.loc
  | .illegal => fail (.illegalToken token.literal) token.loc
  | _ => fail (.badToken token.literal) token.loc

end Rules

/-- The statement that starts with the current token, if at most `levels` levels of
statements and expressions are left. -/
def statement : (levels : Nat) → Cursor → Option Statement × Cursor
  | 0 => recover tooDeep
  | levels + 1 => recover (statementRule (expression levels) (statement levels))

end LineBasic.Grammar
