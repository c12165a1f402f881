import LineBasic.Grammar.Expression
import LineBasic.Token.Lexeme

/-!
# Spelling expressions

How an expression is written in a listing. Tokens stand one space apart, except in a list of
arguments or subscripts, which is written tight: `F(a, b)`. Parentheses group an operand only
where the operators bind it too weakly otherwise.

`Expr.isSpellable` says which trees can be written at all: names that scan as names, numbers and
strings that scan as such, subscripts on declared arrays only and calls of other names only.
`Expr.levels` is the number of levels that the parser opens within the text.
-/

namespace LineBasic

/-! ## Tokens as written -/

namespace Lexeme

/-- A name as written. -/
def ofName (name : String) : Lexeme := ⟨.ident, name, Utf8.encode name⟩

/-- A number as written. -/
def ofDigits (digits : String) : Lexeme := ⟨.num, digits, Utf8.encode digits⟩

/-- A line number as written. -/
def ofLineNumber (digits : String) : Lexeme := ⟨.lineNo, digits, Utf8.encode digits⟩

/-- A string as written. -/
def ofText (text : String) : Lexeme := ⟨.str, text, 0x22 :: Utf8.encode text ++ [0x22]⟩

/-- A symbol as written. -/
def ofSymbol (symbol : Symbol) : Lexeme :=
  ⟨.sym symbol, symbol.spelling, Utf8.encode symbol.spelling⟩

/-- A reserved word as written. -/
def ofKeyword (keyword : Keyword) : Lexeme :=
  ⟨.word keyword, keyword.spelling, Utf8.encode keyword.spelling⟩

end Lexeme

/-- The token that an operator before its operand is. -/
def UnaryOp.lexeme : UnaryOp → Lexeme
  | neg => .ofSymbol .minus
  | len => .ofKeyword .len
  | asc => .ofKeyword .asc
  | chr => .ofKeyword .chr

/-- The token that an operator between its operands is. -/
def BinaryOp.lexeme : BinaryOp → Lexeme
  | add => .ofSymbol .plus
  | sub => .ofSymbol .minus
  | mul => .ofSymbol .asterisk
  | div => .ofSymbol .slash
  | eq => .ofSymbol .eq
  | ne => .ofSymbol .notEq
  | lt => .ofSymbol .lt
  | gt => .ofSymbol .gt
  | and => .ofKeyword .and
  | or => .ofKeyword .or

/-- A piece of a line: a token, or a space. -/
inductive Mark where
  | token (lexeme : Lexeme)
  | space
  deriving DecidableEq, Repr

namespace Mark

/-- The bytes of a piece. -/
def source : Mark → List UInt8
  | token lexeme => lexeme.source
  | space => [0x20]

@[simp]
theorem source_token (lexeme : Lexeme) : (token lexeme).source = lexeme.source := rfl

@[simp]
theorem source_space : space.source = [0x20] := rfl

/-- The token that a piece is. -/
def lexeme? : Mark → Option Lexeme
  | token lexeme => some lexeme
  | space => none

/-- A symbol. -/
def symbol (symbol : Symbol) : Mark := token (.ofSymbol symbol)

/-- The bytes of some pieces. -/
def text (marks : List Mark) : List UInt8 := marks.flatMap source

@[simp]
theorem text_nil : text [] = [] := rfl

@[simp]
theorem text_cons (mark : Mark) (marks : List Mark) :
    text (mark :: marks) = mark.source ++ text marks := rfl

@[simp]
theorem text_append (left right : List Mark) : text (left ++ right) = text left ++ text right :=
  List.flatMap_append

/-- A gap is so many spaces. -/
theorem text_spaces (gap : Nat) : text (List.replicate gap space) = List.replicate gap 0x20 := by
  induction gap with
  | zero => rfl
  | succ gap ih => rw [List.replicate_succ, text_cons, ih]; rfl

end Mark

/-! ## Expressions -/

/-- A property that an expression has if all its parts do, the members of its lists included. -/
theorem Expr.induction {motive : Expr → Prop}
    (var : ∀ name indices loc, (∀ e ∈ indices, motive e) → motive (.var name indices loc))
    (int : ∀ literal, motive (.int literal)) (str : ∀ text loc, motive (.str text loc))
    (unary : ∀ op operand loc, motive operand → motive (.unary op operand loc))
    (binary : ∀ op left right loc, motive left → motive right → motive (.binary op left right loc))
    (call : ∀ function arguments loc, (∀ e ∈ arguments, motive e) →
      motive (.call function arguments loc)) (expression : Expr) : motive expression :=
  @Expr.rec motive (fun expressions => ∀ e ∈ expressions, motive e) var int str unary binary call
    (fun _ h => absurd h List.not_mem_nil)
    (fun _ _ hhead htail => List.forall_mem_cons.2 ⟨hhead, htail⟩) expression

/-- Whether an expression has to be grouped where an operator of the power given binds it: it is
an operation of a weaker operator. -/
def Expr.isWeaker (power : Nat) : Expr → Bool
  | .binary op _ _ _ => op.power < power
  | _ => false

/-- Pieces in parentheses, with `gap` spaces inside of them, if that is needed. -/
def Mark.group (gap : Nat) (needed : Bool) (marks : List Mark) : List Mark :=
  if needed then
    symbol .lparen :: List.replicate gap space ++ marks ++ List.replicate gap space ++
      [symbol .rparen]
  else
    marks

mutual

/-- How an expression is written, with `gap` spaces inside grouping parentheses. -/
def Expr.marks (gap : Nat) : Expr → List Mark
  | .var name indices _ =>
    .token (.ofName name) ::
      if indices.isEmpty then []
      else .symbol .lparen :: Expr.listMarks gap indices ++ [.symbol .rparen]
  | .int literal => [.token (.ofDigits literal.literal)]
  | .str text _ => [.token (.ofText text)]
  | .unary op operand _ =>
    .token op.lexeme :: .space ::
      Mark.group gap (operand.isWeaker Grammar.unaryPower) (operand.marks gap)
  | .binary op left right _ =>
    Mark.group gap (left.isWeaker op.power) (left.marks gap) ++
      .space :: .token op.lexeme :: .space ::
      Mark.group gap (right.isWeaker (op.power + 1)) (right.marks gap)
  | .call function arguments _ =>
    .token (.ofName function) :: .symbol .lparen :: Expr.listMarks gap arguments ++
      [.symbol .rparen]

/-- How expressions are written with commas between them. -/
def Expr.listMarks (gap : Nat) : List Expr → List Mark
  | [] => []
  | [last] => last.marks gap
  | head :: next :: tail =>
    head.marks gap ++ .symbol .comma :: .space :: Expr.listMarks gap (next :: tail)

end

/-- One level more if the expression is grouped. -/
def groupLevels (needed : Bool) (levels : Nat) : Nat :=
  if needed then levels + 1 else levels

mutual

/-- The number of levels that the parser opens inside an expression: one for each operand on the
right of an operator or after one, for each argument and for each group. -/
def Expr.levels : Expr → Nat
  | .var _ indices _ => Expr.listLevels indices
  | .int _ => 0
  | .str _ _ => 0
  | .unary _ operand _ => groupLevels (operand.isWeaker Grammar.unaryPower) operand.levels + 1
  | .binary op left right _ =>
    max (groupLevels (left.isWeaker op.power) left.levels)
      (groupLevels (right.isWeaker (op.power + 1)) right.levels + 1)
  | .call _ arguments _ => Expr.listLevels arguments

/-- The number of levels that the parser opens for a list of expressions. -/
def Expr.listLevels : List Expr → Nat
  | [] => 0
  | head :: tail => max (head.levels + 1) (Expr.listLevels tail)

end

/-! ## Trees that can be written -/

/-- Whether characters spell a word: a letter, letters and digits, and a dollar sign or none. -/
def isWordText : List Char → Bool
  | [] => false
  | head :: tail =>
    head.isAlpha &&
      (tail.dropWhile Char.isAlphanum == [] || tail.dropWhile Char.isAlphanum == ['$'])

/-- Whether a text is a name: a word that is not reserved. -/
def isName (text : String) : Bool :=
  isWordText text.toList && (Keyword.ofSpelling? text).isNone

/-- Whether a text is a number in decimal digits. -/
def isDigits (text : String) : Bool :=
  !text.toList.isEmpty && text.toList.all Char.isDigit

/-- Whether a character can stand in a string. -/
def isStringChar (c : Char) : Bool :=
  c != '"' && c != '\r' && c != '\n'

/-- Whether an integer is written in decimal digits and fits in 64 bits with a sign. -/
def IntLit.isSpellable (literal : IntLit) : Bool :=
  isDigits literal.literal && decimalValue literal.literal.toList ≤ 0x7FFFFFFFFFFFFFFF &&
    literal.value == Int.ofNat (decimalValue literal.literal.toList)

mutual

/-- Whether an expression can be written where the names in `declared` are those of arrays. -/
def Expr.isSpellable (declared : String → Bool) : Expr → Bool
  | .var name indices _ =>
    isName name && (indices.isEmpty || declared name) && Expr.listIsSpellable declared indices
  | .int literal => literal.isSpellable
  | .str text _ => text.toList.all isStringChar
  | .unary _ operand _ => operand.isSpellable declared
  | .binary _ left right _ => left.isSpellable declared && right.isSpellable declared
  | .call function arguments _ =>
    isName function && !declared function && Expr.listIsSpellable declared arguments

/-- Whether all of some expressions can be written. -/
def Expr.listIsSpellable (declared : String → Bool) : List Expr → Bool
  | [] => true
  | head :: tail => head.isSpellable declared && Expr.listIsSpellable declared tail

end

/-- Each expression of a list that can be spelled can be. -/
theorem Expr.isSpellable_of_mem {declared : String → Bool} {expressions : List Expr}
    (h : Expr.listIsSpellable declared expressions = true) :
    ∀ e ∈ expressions, e.isSpellable declared = true := by
  induction expressions with
  | nil => simp
  | cons head tail ih =>
    rw [listIsSpellable, Bool.and_eq_true] at h
    exact List.forall_mem_cons.2 ⟨h.1, ih h.2⟩

/-- A numbered line that assigns the value of an expression to a variable. -/
def assignmentLine (gap : Nat) (number name : String) (value : Expr) : List UInt8 :=
  Mark.text (.token (.ofLineNumber number) :: .space :: .token (.ofName name) :: .space ::
    .symbol .eq :: .space :: value.marks gap)

end LineBasic
