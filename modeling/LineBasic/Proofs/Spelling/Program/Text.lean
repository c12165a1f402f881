import LineBasic.Proofs.Declarations
import LineBasic.Proofs.Grammar.Layout
import LineBasic.Proofs.Token.Literals

/-!
# Spelling programs

How a program is written as a listing (`listing`). Every line number starts a line, and the data of
the line stands behind it. Other statements of a line have ` : ` between them. Calls have
parentheses, loops have a step and end in `NEXT` without a counter, an arm that is a jump is its
label alone, and any other arm is its statements, with a colon before a label that comes first.

What divides data from the statement behind it is left open here, because a payload goes on to the
next colon and takes in the spaces before it.

`Statement.isSpellable` says which statements can be written where some arrays are declared.
-/

namespace LineBasic

/-! ## Pieces -/

namespace Lexeme

/-- A line number as written behind another line. The line break belongs to it. -/
def ofLine (digits : String) : Lexeme := ⟨.lineNo, digits, 0x0A :: Utf8.encode digits⟩

/-- Data as written. -/
def ofData (payload : String) : Lexeme :=
  ⟨.word .data, payload, Utf8.encode "DATA" ++ 0x20 :: Utf8.encode payload⟩

end Lexeme

namespace Mark

/-- A reserved word. -/
def keyword (keyword : Keyword) : Mark := token (.ofKeyword keyword)

/-- Pieces with commas between them. -/
def commas : List (List Mark) → List Mark
  | [] => []
  | [last] => last
  | head :: next :: tail => head ++ symbol .comma :: space :: commas (next :: tail)

/-- A colon directly behind what stands before it. -/
def colon : List Mark := [symbol .colon, space]

/-- A colon with a space on each side. -/
def spacedColon : List Mark := space :: colon

end Mark

/-- How the label of a jump is written. -/
def JumpTarget.marks (target : JumpTarget) : List Mark :=
  if isNumeral target.name then [.token (.ofDigits target.name)]
  else [.symbol .asterisk, .token (.ofName target.name)]

/-- How a size of an array is written. -/
def IntLit.marks (literal : IntLit) : List Mark := [.token (.ofDigits literal.literal)]

/-- How an array of a declaration is written. -/
def ArrayDecl.marks (array : ArrayDecl) : List Mark :=
  .token (.ofName array.name) :: .symbol .lparen ::
    (Mark.commas (array.sizes.map IntLit.marks) ++ [.symbol .rparen])

/-! ## Statements -/

/-- What stands before a statement that is no line number. -/
inductive Lead where
  /-- The start of the listing. -/
  | start
  /-- A line number, or a word that opens an arm. -/
  | word
  /-- Data. -/
  | data
  /-- A statement, or the head of a loop. -/
  | statement
  deriving DecidableEq, Repr

/-- What divides the statement from what stands before it. -/
def Lead.marks (afterData : List Mark) : Lead → List Mark
  | start => []
  | word => [.space]
  | data => afterData
  | statement => Mark.spacedColon

namespace Statement

/-- Whether the statement is a label. -/
def isLabel : Statement → Bool
  | label _ _ => true
  | _ => false

/-- What a statement is to the one behind it. -/
def lead : Statement → Lead
  | lineNumber _ none _ => .word
  | lineNumber _ (some _) _ => .data
  | _ => .statement

/-- What the last of some statements is to what stands behind them. -/
def listLead (first : Lead) (statements : List Statement) : Lead :=
  (statements.getLast?.map lead).getD first

/-- What an arm starts with is to the first of its statements: a label has a colon before it. -/
def armLead (statements : List Statement) : Lead :=
  if statements.head?.any isLabel then .statement else .word

end Statement

section Marks

variable (gap : Nat) (afterData : List Mark)

mutual

/-- How an arm is written, from behind the word that opens it. -/
def Branch.marks : Branch → List Mark
  | .goto target => .space :: target.marks
  | .block statements => Statement.listMarks (Statement.armLead statements) statements

/-- How an arm is written which may be missing. -/
def Branch.elseMarks : Option Branch → List Mark
  | none => []
  | some branch => .space :: .keyword .else_ :: branch.marks

/-- How a statement is written. -/
def Statement.marks : Statement → List Mark
  | .lineNumber name none _ => [.token (.ofLine name)]
  | .lineNumber name (some data) _ => [.token (.ofLine name), .space, .token (.ofData data.value)]
  | .label name _ => [.symbol .asterisk, .token (.ofName name)]
  | .dim arrays _ => .keyword .dim :: .space :: Mark.commas (arrays.map ArrayDecl.marks)
  | .cond condition consequence alternative _ =>
    .keyword .if_ :: .space :: (condition.marks gap ++
      .space :: .keyword .then_ :: (consequence.marks ++ Branch.elseMarks alternative))
  | .on value kind targets _ =>
    .keyword .on :: .space :: (value.marks gap ++
      .space :: .keyword kind.word :: .space :: Mark.commas (targets.map JumpTarget.marks))
  | .goto target _ => .keyword .goto :: .space :: target.marks
  | .gosub target _ => .keyword .gosub :: .space :: target.marks
  | .ret _ => [.keyword .return_]
  -- what divides `NEXT` from the body is what would divide another statement from it
  | .loop counter first last step body _ =>
    .keyword .for_ :: .space :: .token (.ofName counter) :: .space :: .symbol .eq :: .space ::
      (first.marks gap ++ .space :: .keyword .to_ :: .space ::
      (last.marks gap ++ .space :: .keyword .step :: .space ::
      (step.marks gap ++ (Statement.listMarks .statement body ++
        ((Statement.listLead .statement body).marks afterData ++ [.keyword .next])))))
  | .assign name indices value loc =>
    (Expr.var name indices loc).marks gap ++ .space :: .symbol .eq :: .space :: value.marks gap
  | .call function arguments loc => (Expr.call function arguments loc).marks gap

/-- How statements are written behind what stands before them. -/
def Statement.listMarks (lead : Lead) : List Statement → List Mark
  | [] => []
  | head :: tail =>
    -- a line number brings its line break along
    (if head.isLine then [] else lead.marks afterData) ++
      (head.marks ++ Statement.listMarks head.lead tail)

end

/-- The bytes without a line break in front of them. -/
def withoutBreak : List UInt8 → List UInt8
  | 0x0A :: bytes => bytes
  | bytes => bytes

/-- The listing of a program, with `gap` spaces inside grouping parentheses and what is given
behind data. -/
def listing (program : List Statement) : List UInt8 :=
  withoutBreak (Mark.text (Statement.listMarks gap afterData .start program))

end Marks

/-! ## Programs that can be written -/

/-- The names of arrays once some more are declared. -/
def Declarations.addedTo (declarations : Declarations) (declared : String → Bool) (name : String) :
    Bool :=
  declared name || declarations.any (·.1 == name)

@[simp]
theorem Declarations.addedTo_nil (declared : String → Bool) :
    Declarations.addedTo [] declared = declared := by
  funext name
  simp [addedTo]

/-- Declarations are added one after the other. -/
theorem Declarations.addedTo_append (left right : Declarations) (declared : String → Bool) :
    Declarations.addedTo (left ++ right) declared = right.addedTo (left.addedTo declared) := by
  funext name
  simp [addedTo, Bool.or_assoc]

/-- Whether the label of a jump can be written. -/
def JumpTarget.isSpellable (target : JumpTarget) : Bool :=
  isNumeral target.name || isName target.name

/-- Whether an array of a declaration can be written. -/
def ArrayDecl.isSpellable (array : ArrayDecl) : Bool :=
  isName array.name && !array.sizes.isEmpty && array.sizes.all IntLit.isSpellable

mutual

/-- Whether an arm can be written where the names in `declared` are those of arrays. -/
def Branch.isSpellable (declared : String → Bool) : Branch → Bool
  | .goto target => target.isSpellable
  | .block statements => Statement.listIsSpellable declared statements

/-- Whether an arm can be written which may be missing. -/
def Branch.elseIsSpellable (declared : String → Bool) : Option Branch → Bool
  | none => true
  | some branch => branch.isSpellable declared

/-- Whether a statement can be written where the names in `declared` are those of arrays. -/
def Statement.isSpellable (declared : String → Bool) : Statement → Bool
  | .lineNumber name data _ =>
    isDigits name && data.all fun item => item.name == name && isPayload item.value
  | .label name _ => isName name
  | .dim arrays _ => !arrays.isEmpty && arrays.all ArrayDecl.isSpellable
  | .cond condition consequence alternative _ =>
    condition.isSpellable declared && consequence.isSpellable declared &&
      Branch.elseIsSpellable (consequence.declarations.addedTo declared) alternative
  | .on value _ targets _ =>
    value.isSpellable declared && !targets.isEmpty && targets.all JumpTarget.isSpellable
  | .goto target _ => target.isSpellable
  | .gosub target _ => target.isSpellable
  | .ret _ => true
  | .loop counter first last step body _ =>
    isName counter && first.isSpellable declared && last.isSpellable declared &&
      step.isSpellable declared && Statement.listIsSpellable declared body
  | .assign name indices value loc =>
    (Expr.var name indices loc).isSpellable declared && value.isSpellable declared
  | .call function arguments loc => (Expr.call function arguments loc).isSpellable declared

/-- Whether some statements can be written, each after those before it. -/
def Statement.listIsSpellable (declared : String → Bool) : List Statement → Bool
  | [] => true
  | head :: tail =>
    head.isSpellable declared &&
      Statement.listIsSpellable (head.declarations.addedTo declared) tail

end

/-- Each statement of a list can be spelled, with what is declared before it. -/
theorem Statement.exists_isSpellable_of_mem {declared : String → Bool}
    {statements : List Statement} (h : Statement.listIsSpellable declared statements = true) :
    ∀ statement ∈ statements, ∃ declared, statement.isSpellable declared = true := by
  induction statements generalizing declared with
  | nil => simp
  | cons head tail ih =>
    rw [Statement.listIsSpellable, Bool.and_eq_true] at h
    exact List.forall_mem_cons.2 ⟨⟨declared, h.1⟩, ih h.2⟩

end LineBasic
