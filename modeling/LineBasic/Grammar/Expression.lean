import LineBasic.Expr
import LineBasic.Grammar.Parse

/-!
# Grammar of expressions

Expressions are read by operator precedence: an operand is extended by what follows it, as
long as that binds stronger than what stands before the operand.

The rules take the parser `inner` of the expressions one level further down, so every rule is
a plain definition; `expression` closes the circle by recursion on the levels that are left.
-/

namespace LineBasic

/-- The deepest that statements and expressions may stand inside each other. -/
def maxNesting : Nat := 64

/-- The number that decimal digits denote. -/
def decimalValue (digits : List Char) : Nat :=
  digits.foldl (fun value digit => value * 10 + (digit.toNat - '0'.toNat)) 0

/-- The first number that does not fit in 64 bits with a sign. -/
def integerLimit : Nat := 0x8000000000000000

/-- The integer that a text of decimal digits denotes, if it fits in 64 bits with a sign. -/
def integerValue? (literal : String) : Option Int :=
  let digits := literal.toList
  if digits ≠ [] ∧ digits.all Char.isDigit ∧ decimalValue digits < integerLimit then
    some (Int.ofNat (decimalValue digits))
  else
    none

/-- The operator before an operand that a token stands for. -/
def UnaryOp.ofKind? : Token.Kind → Option UnaryOp
  | .sym .minus => some neg
  | .word .len => some len
  | .word .asc => some asc
  | .word .chr => some chr
  | _ => none

namespace BinaryOp

/-- The operator between operands that a token stands for. -/
def ofKind? : Token.Kind → Option BinaryOp
  | .sym .plus => some add
  | .sym .minus => some sub
  | .sym .asterisk => some mul
  | .sym .slash => some div
  | .sym .eq => some eq
  | .sym .notEq => some ne
  | .sym .lt => some lt
  | .sym .gt => some gt
  | .word .and => some and
  | .word .or => some or
  | _ => none

/-- How strongly an operator binds its operands. -/
def power : BinaryOp → Nat
  | or => 1
  | and => 2
  | eq => 3
  | ne => 3
  | lt => 4
  | gt => 4
  | add => 5
  | sub => 5
  | mul => 6
  | div => 6

end BinaryOp

namespace Grammar

open Parse

/-- How weakly an expression on its own is bound: any operator binds its operands stronger. -/
def openPower : Nat := 0

/-- How strongly an operator before an operand binds it. -/
def unaryPower : Nat := 7

/-- How strongly a list of arguments binds the name before it. -/
def callPower : Nat := 8

/-- How strongly a token binds the expression before it, or nothing if the token does not
extend an expression. -/
def extensionPower? : Token.Kind → Option Nat
  | .sym .lparen => some callPower
  | kind => (BinaryOp.ofKind? kind).map (·.power)

/-- Whether the next token extends an expression that is bound by `power` from the left. -/
def canExtend (power : Nat) (cursor : Cursor) : Bool :=
  match extensionPower? cursor.peek.kind with
  | some stronger => power < stronger
  | none => false

/-- Fails because too much stands inside each other. -/
def tooDeep {α : Type} : Parse α := do
  let token ← current
  fail (.tooDeep maxNesting) token.loc

/-- The integer that the current token is. -/
def integer : Parse IntLit := do
  let token ← current
  match integerValue? token.literal with
  | some value => return ⟨value, token.literal, token.loc⟩
  | none => fail (.badInteger token.literal) token.loc

section Rules

variable (inner : Nat → Parse Expr)

/-- The expression after the current token, bound by `power` from the left. A token that ends
the statement is not taken in. -/
def nextExpression (power : Nat) : Parse Expr := do
  let next ← peek
  if next.kind.isTerminator then
    fail (.noOperand next.kind) next.loc
  else
    let _ ← advance
    inner power

/-- Expressions with commas between them, after the current token. -/
def expressionList : Parse (List Expr) :=
  commaList (nextExpression inner openPower)

/-- A list of subscripts, from its opening parenthesis on. -/
def subscripts : Parse (List Expr) := do
  let indices ← expressionList inner
  let _ ← expect (.sym .rparen)
  return indices

/-- A list of arguments in parentheses, from the opening one on. It may be empty. -/
def arguments : Parse (List Expr) := do
  if (← peek).kind = .sym .rparen then
    let _ ← advance
    return []
  else
    subscripts inner

/-- What a name stands for: an array or an element of it, if the array is declared; the call
of a function, if a name or a number follows as its bare argument; else a variable. -/
def named : Parse Expr := do
  let token ← current
  let next ← peek
  if (← get).isArray token.literal then
    if next.kind = .sym .lparen then
      let _ ← advance
      let indices ← subscripts inner
      return .var token.literal indices token.loc
    else
      return .var token.literal [] token.loc
  else if next.kind = .ident ∨ next.kind = .num then
    let arguments ← expressionList inner
    return .call token.literal arguments token.loc
  else
    return .var token.literal [] token.loc

/-- An expression in parentheses. -/
def grouped : Parse Expr := do
  let expression ← nextExpression inner openPower
  let _ ← expect (.sym .rparen)
  return expression

/-- An operator before its operand. -/
def unary (op : UnaryOp) : Parse Expr := do
  let token ← current
  let operand ← nextExpression inner unaryPower
  return .unary op operand token.loc

/-- The operand that starts with the current token. -/
def operand : Parse Expr := do
  let token ← current
  match token.kind with
  | .ident => named inner
  | .num => return .int (← integer)
  | .str => return .str token.literal token.loc
  | .sym .lparen => grouped inner
  | .illegal => fail (.illegalToken token.literal) token.loc
  | kind =>
    match UnaryOp.ofKind? kind with
    | some op => unary inner op
    | none => fail (.noOperand kind) token.loc

/-- A call, with the parenthesis after the function as the current token. Only a plain name
can be called. -/
def called : Expr → Parse Expr
  | .var name [] loc => do
    let arguments ← arguments inner
    return .call name arguments loc
  | function => fail .notCallable function.loc

/-- An expression extended by the next token: an operator and its right operand, or the
arguments of a call. -/
def extend (left : Expr) : Parse Expr := do
  let token ← advance
  match BinaryOp.ofKind? token.kind with
  | some op =>
    let right ← nextExpression inner op.power
    return .binary op left right token.loc
  | none => called inner left

/-- The expression that starts with the current token, bound by `power` from the left. -/
def expressionRule (power : Nat) : Parse Expr := do
  let left ← operand inner
  iterate (canExtend power) (extend inner) left

end Rules

/-- The expression that starts with the current token, bound by `power` from the left, if at
most `levels` levels of statements and expressions are left. -/
def expression : (levels : Nat) → (power : Nat) → Parse Expr
  | 0, _ => tooDeep
  | levels + 1, power => expressionRule (expression levels) power

end Grammar

end LineBasic
