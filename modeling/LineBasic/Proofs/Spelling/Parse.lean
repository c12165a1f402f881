import LineBasic.Proofs.Grammar.Rounds
import LineBasic.Proofs.Grammar.Soundness
import LineBasic.Proofs.Relocation
import LineBasic.Proofs.Spelling.Scan

/-!
# Parsing what is written

The parser finds in the tokens of a written expression the expression itself, up to the places
of its parts (`Grammar.yields_of_isSpellable`).

The parser reads an operand and then extends it in a loop, so the left operand of an operator is
not a parse of its own: it is what the loop has come to when it meets the operator. The induction
is therefore about the loop. `Starts` says that from the first token of an expression the loop
comes to that expression, whatever it makes of it afterwards, and `Yields` that the parse ends
there. The tokens that follow have to leave the expression alone (`Closes`).
-/

namespace LineBasic

open Cursor Parse

/-- The expression with its places left out. -/
def Expr.unplaced (expression : Expr) : Expr := expression.relocate fun _ => .start

section Unplaced

@[simp]
theorem Expr.unplaced_var (name : String) (indices : List Expr) (loc : Location) :
    (Expr.var name indices loc).unplaced = .var name (indices.map Expr.unplaced) .start := by
  rw [Expr.unplaced, Expr.relocate, Expr.relocateAll_eq_map]
  rfl

@[simp]
theorem Expr.unplaced_call (function : String) (arguments : List Expr) (loc : Location) :
    (Expr.call function arguments loc).unplaced =
      .call function (arguments.map Expr.unplaced) .start := by
  rw [Expr.unplaced, Expr.relocate, Expr.relocateAll_eq_map]
  rfl

@[simp]
theorem Expr.unplaced_unary (op : UnaryOp) (operand : Expr) (loc : Location) :
    (Expr.unary op operand loc).unplaced = .unary op operand.unplaced .start := rfl

@[simp]
theorem Expr.unplaced_binary (op : BinaryOp) (left right : Expr) (loc : Location) :
    (Expr.binary op left right loc).unplaced =
      .binary op left.unplaced right.unplaced .start := rfl

end Unplaced

/-! ## Tokens that say what is written -/

/-- The tokens start with some that say this, and the others follow. -/
def Shows (faces : List (Token.Kind × String)) (tokens others : List Token) : Prop :=
  ∃ shown, tokens = shown ++ others ∧ shown.map Token.face = faces

namespace Shows

variable {faces : List (Token.Kind × String)} {tokens others : List Token} {cursor : Cursor}
  {kind : Token.Kind} {literal : String}

theorem eq_of_nil (h : Shows [] tokens others) : tokens = others := by
  obtain ⟨shown, rfl, hshown⟩ := h
  rw [List.map_eq_nil_iff.1 hshown, List.nil_append]

/-- The tokens that show two lists of faces are those that show the first and then the second. -/
theorem exists_of_append {left right : List (Token.Kind × String)}
    (h : Shows (left ++ right) tokens others) :
    ∃ middle, Shows left tokens middle ∧ Shows right middle others := by
  obtain ⟨shown, rfl, hshown⟩ := h
  obtain ⟨shown₁, shown₂, rfl, hleft, hright⟩ := List.map_eq_append_iff.1 hshown
  exact ⟨shown₂ ++ others, ⟨shown₁, List.append_assoc _ _ _, hleft⟩, ⟨shown₂, rfl, hright⟩⟩

/-- The first token shows the first face. -/
theorem exists_of_cons (h : Shows ((kind, literal) :: faces) tokens others) :
    ∃ token rest, tokens = token :: rest ∧ token.kind = kind ∧ token.literal = literal ∧
      Shows faces rest others := by
  obtain ⟨shown, rfl, hshown⟩ := h
  obtain ⟨token, rest, rfl, hface, hrest⟩ := List.map_eq_cons_iff.1 hshown
  rw [Token.face, Prod.mk.injEq] at hface
  exact ⟨token, rest ++ others, rfl, hface.1, hface.2, ⟨rest, rfl, hrest⟩⟩

/-- The first of the tokens shown is the current one. -/
theorem current (h : Shows ((kind, literal) :: faces) cursor.tokens others) :
    cursor.current.kind = kind ∧ cursor.current.literal = literal ∧
      Shows faces cursor.rest others := by
  obtain ⟨token, rest, htokens, hkind, hliteral, hrest⟩ := h.exists_of_cons
  rw [Cursor.current, Cursor.rest, htokens]
  exact ⟨hkind, hliteral, hrest⟩

/-- The first of the tokens shown after the current one is the next. -/
theorem peek (h : Shows ((kind, literal) :: faces) cursor.rest others) :
    cursor.peek.kind = kind ∧ cursor.peek.literal = literal ∧
      Shows faces cursor.advance.rest others := by
  rw [← tokens_advance] at h
  exact h.current

end Shows

/-! ## Tokens that leave an expression alone -/

/-- The tokens do not go on with an expression before them: they are no bare argument, and what
they start with binds no stronger than `bound`. -/
def Closes (bound : Nat) (tokens : List Token) : Prop :=
  ∀ token ∈ tokens.head?, token.kind ≠ .ident ∧ token.kind ≠ .num ∧
    ∀ power, Grammar.extensionPower? token.kind = some power → power ≤ bound

namespace Closes

variable {bound : Nat} {tokens others : List Token} {cursor : Cursor} {kind : Token.Kind}

theorem nil : Closes bound [] := by
  intro token htoken
  cases htoken

/-- A face that neither starts an argument nor binds stronger than the bound ends an expression. -/
theorem of_shows {literal : String} {faces : List (Token.Kind × String)}
    (h : Shows ((kind, literal) :: faces) tokens others) (hident : kind ≠ .ident)
    (hnum : kind ≠ .num)
    (hpower : ∀ power, Grammar.extensionPower? kind = some power → power ≤ bound) :
    Closes bound tokens := by
  obtain ⟨first, rest, rfl, rfl, -, -⟩ := h.exists_of_cons
  intro token htoken
  cases htoken
  exact ⟨hident, hnum, hpower⟩

/-- What ends an expression ends one with operators that bind stronger. -/
theorem mono {larger : Nat} (h : Closes bound tokens) (hle : bound ≤ larger) :
    Closes larger tokens := by
  intro token htoken
  obtain ⟨hident, hnum, hpower⟩ := h token htoken
  exact ⟨hident, hnum, fun power hsome => Nat.le_trans (hpower power hsome) hle⟩

/-- The next token neither starts an argument nor goes on with the expression. -/
theorem peek (h : Closes bound cursor.rest) :
    cursor.peek.kind ≠ .ident ∧ cursor.peek.kind ≠ .num ∧
      ∀ power, Grammar.extensionPower? cursor.peek.kind = some power → power ≤ bound := by
  cases hrest : cursor.rest with
  | nil =>
    -- the end of the listing goes on with nothing
    rw [peek_kind_of_rest_nil hrest]
    exact ⟨by decide, by decide, fun power hsome => by cases hsome⟩
  | cons token rest =>
    rw [peek_of_rest_cons hrest]
    exact h token (by rw [hrest]; rfl)

/-- What binds no stronger than what stands before the expression does not extend it. -/
theorem not_canExtend (h : Closes bound cursor.rest) : Grammar.canExtend bound cursor = false := by
  unfold Grammar.canExtend
  split
  next power hsome =>
    have hle := h.peek.2.2 power hsome
    exact decide_eq_false (by omega)
  next => rfl

end Closes

/-! ## How strongly an expression holds together -/

/-- How strongly an expression holds together where it is written without parentheses. -/
def Expr.strength : Expr → Nat
  | .binary op _ _ _ => op.power
  | _ => Grammar.unaryPower

namespace BinaryOp

theorem power_pos (op : BinaryOp) : 0 < op.power := by
  cases op <;> decide

/-- No operator binds as strong as a sign. -/
theorem power_lt_unaryPower (op : BinaryOp) : op.power < Grammar.unaryPower := by
  cases op <;> decide

theorem ofKind?_lexeme (op : BinaryOp) : ofKind? op.lexeme.kind = some op := by
  cases op <;> rfl

theorem extensionPower?_lexeme (op : BinaryOp) :
    Grammar.extensionPower? op.lexeme.kind = some op.power := by
  cases op <;> rfl

end BinaryOp

namespace Expr

/-- No expression is weaker than the weakest operator, so none needs parentheses on its own. -/
theorem isWeaker_one (expression : Expr) : expression.isWeaker 1 = false := by
  cases expression with
  | binary op =>
    have hpos := op.power_pos
    exact decide_eq_false (by omega)
  | _ => rfl

/-- What is not weaker than a strong operator is not weaker than one that binds less. -/
theorem isWeaker_mono {power larger : Nat} {expression : Expr}
    (h : expression.isWeaker larger = false) (hle : power ≤ larger) :
    expression.isWeaker power = false := by
  cases expression with
  | binary op =>
    have hlarger : ¬op.power < larger := of_decide_eq_false h
    exact decide_eq_false (by omega)
  | _ => rfl

/-- Nothing binds between the operators after which an operand stands and those before it. -/
theorem isWeaker_unaryPower {expression : Expr}
    (h : expression.isWeaker Grammar.unaryPower = false) (power : Nat) :
    expression.isWeaker power = false := by
  cases expression with
  | binary op =>
    have hweak : ¬op.power < Grammar.unaryPower := of_decide_eq_false h
    exact absurd op.power_lt_unaryPower hweak
  | _ => rfl

/-- An expression that needs no parentheses next to an operator binds at least as strong. -/
theorem le_strength {power : Nat} {expression : Expr} (h : expression.isWeaker power = false)
    (hle : power ≤ Grammar.unaryPower) : power ≤ expression.strength := by
  cases expression with
  | binary op =>
    have hpower : ¬op.power < power := of_decide_eq_false h
    exact Nat.le_of_not_lt hpower
  | _ => exact hle

end Expr

/-! ## What the parser makes of a written expression -/

namespace Grammar

/-- The parser went from one cursor to another, with the others after it, and its value is the
expression. -/
structure Finds (cursor : Cursor) (others : List Token) (expression value : Expr)
    (last : Cursor) : Prop where
  moves : Moves cursor last
  rest : last.rest = others
  same : value.unplaced = expression.unplaced

section Outcomes

variable (declared : String → Bool) (levels power : Nat)

/-- From the first of the tokens on, the loop of the expression parser comes to the expression and
goes on with it. -/
def Starts (bound : Nat) (faces : List (Token.Kind × String)) (expression : Expr) : Prop :=
  ∀ cursor others, cursor.isArray = declared → Shows faces cursor.tokens others →
    Closes bound others → ∃ value last,
      expressionRule (Grammar.expression levels) power cursor =
          iterate (canExtend power) (extend (Grammar.expression levels)) value last ∧
        Finds cursor others expression value last

/-- From the first of the tokens on, the expression parser comes to the expression and ends. -/
def Yields (faces : List (Token.Kind × String)) (expression : Expr) : Prop :=
  ∀ cursor others, cursor.isArray = declared → Shows faces cursor.tokens others →
    Closes power others → ∃ value last,
      Grammar.expression (levels + 1) power cursor = .ok value last ∧
        Finds cursor others expression value last

end Outcomes

variable {declared : String → Bool} {levels power bound : Nat} {expression : Expr}
  {faces : List (Token.Kind × String)} {cursor : Cursor} {others : List Token}

theorem Starts.mono {larger : Nat} (h : Starts declared levels power larger faces expression)
    (hle : bound ≤ larger) : Starts declared levels power bound faces expression :=
  fun cursor others harrays hshows hcloses => h cursor others harrays hshows (hcloses.mono hle)

/-- At the end of an expression, what has been read from its start is all of it. -/
theorem Starts.yields (h : Starts declared levels power bound faces expression)
    (hle : power ≤ bound) : Yields declared levels power faces expression := by
  intro cursor others harrays hshows hcloses
  obtain ⟨value, last, hrule, hfinds⟩ := h cursor others harrays hshows (hcloses.mono hle)
  refine ⟨value, last, ?_, hfinds⟩
  -- the loop has come to the expression, and the tokens that follow stop it there
  rw [Grammar.expression, hrule]
  refine iterate_of_not ?_
  rw [← hfinds.rest] at hcloses
  exact hcloses.not_canExtend

/-- The loop comes to an operand at once. -/
theorem expressionRule_of_operand {inner : Nat → Parse Expr} {value : Expr} {last : Cursor}
    (h : operand inner cursor = .ok value last) (power : Nat) :
    expressionRule inner power cursor =
      iterate (canExtend power) (extend inner) value last := by
  rw [expressionRule, bind_apply, h]

/-- No expression starts with a token that ends a statement or a list. -/
theorem kind_of_expression {value : Expr} {last : Cursor}
    (h : Grammar.expression (levels + 1) power cursor = .ok value last) :
    cursor.current.kind.isTerminator = false ∧ cursor.current.kind ≠ .sym .rparen := by
  rw [Grammar.expression, expressionRule, bind_eq_ok] at h
  obtain ⟨_, _, h, -⟩ := h
  rw [operand_apply] at h
  -- the operand parser refuses every other symbol, a line number and the end
  cases hkind : cursor.current.kind with
  | sym symbol =>
    rw [hkind] at h
    cases symbol <;> first | exact ⟨rfl, by decide⟩ | cases h
  | lineNo | eof =>
    rw [hkind] at h
    cases h
  | _ => exact ⟨rfl, Token.Kind.noConfusion⟩

/-- An expression that stands after the current token. -/
theorem Yields.next (h : Yields declared levels power faces expression)
    (harrays : cursor.isArray = declared) (hshows : Shows faces cursor.rest others)
    (hcloses : Closes power others) :
    ∃ value last, nextExpression (Grammar.expression (levels + 1)) power cursor = .ok value last ∧
      Finds cursor others expression value last := by
  obtain ⟨value, last, hrun, hfinds⟩ := h cursor.advance others harrays hshows hcloses
  have hstart : cursor.peek.kind.isTerminator = false := (kind_of_expression hrun).1
  refine ⟨value, last, ?_, drift_moves.trans (drift_moves.advance _) hfinds.moves, hfinds.rest,
    hfinds.same⟩
  rw [nextExpression, bind_apply, peek_apply]
  dsimp only
  rw [hstart]
  exact hrun

/-! ## Lists and groups -/

/-- A group shows its parentheses around what is in it. -/
theorem faces_group (gap : Nat) (marks : List Mark) :
    Mark.faces (Mark.group gap true marks) =
      (.sym .lparen, Symbol.lparen.spelling) ::
        (Mark.faces marks ++ [(.sym .rparen, Symbol.rparen.spelling)]) := by
  simp [Mark.group]

/-- Expressions with commas between them, after the current token. -/
theorem exists_commaRun {gap : Nat} {expressions : List Expr} (hne : expressions ≠ [])
    (h : ∀ e ∈ expressions, Yields declared levels openPower (Mark.faces (e.marks gap)) e)
    (harrays : cursor.isArray = declared)
    (hshows : Shows (Mark.faces (Expr.listMarks gap expressions)) cursor.rest others)
    (hcloses : Closes openPower others) :
    ∃ values last, CommaRun (nextExpression (Grammar.expression (levels + 1)) openPower) cursor
        values last ∧ Moves cursor last ∧ last.rest = others ∧
      values.map Expr.unplaced = expressions.map Expr.unplaced := by
  induction expressions generalizing cursor with
  | nil => exact absurd rfl hne
  | cons head tail ih =>
    have hhead := h head List.mem_cons_self
    cases tail with
    | nil =>
      obtain ⟨value, last, hrun, hfinds⟩ := hhead.next harrays hshows hcloses
      exact ⟨[value], last, .one hrun, hfinds.moves, hfinds.rest, by simp [hfinds.same]⟩
    | cons next tail =>
      rw [Expr.listMarks, Mark.faces_append, Mark.faces_symbol, Mark.faces_space] at hshows
      obtain ⟨middle, hfirst, hothers⟩ := hshows.exists_of_append
      -- a comma extends nothing, so the first expression ends before it
      have hcomma : Closes openPower middle :=
        .of_shows hothers (by decide) (by decide) fun power hsome => by cases hsome
      obtain ⟨value, last, hrun, hfinds⟩ := hhead.next harrays hfirst hcomma
      rw [← hfinds.rest] at hothers
      obtain ⟨hkind, -, hrest⟩ := hothers.peek
      have harrays' : last.advance.isArray = declared := hfinds.moves.isArray.trans harrays
      obtain ⟨values, last', hruns, hmoves, hlast, hsame⟩ := ih (List.cons_ne_nil _ _)
        (fun e he => h e (List.mem_cons_of_mem _ he)) harrays' hrest
      refine ⟨value :: values, last', .cons hrun hkind hruns, ?_, hlast, ?_⟩
      · exact drift_moves.trans hfinds.moves (drift_moves.trans (drift_moves.advance _) hmoves)
      · rw [List.map_cons, List.map_cons, hfinds.same, hsame]

/-- A list in parentheses, the opening one being the current token. -/
theorem exists_subscripts {gap : Nat} {expressions : List Expr} (hne : expressions ≠ [])
    (h : ∀ e ∈ expressions, Yields declared levels openPower (Mark.faces (e.marks gap)) e)
    (harrays : cursor.isArray = declared)
    (hshows : Shows (Mark.faces (Expr.listMarks gap expressions ++ [.symbol .rparen])) cursor.rest
      others) :
    ∃ values last, subscripts (Grammar.expression (levels + 1)) cursor = .ok values last ∧
      Moves cursor last ∧ last.rest = others ∧
      values.map Expr.unplaced = expressions.map Expr.unplaced := by
  rw [Mark.faces_append] at hshows
  obtain ⟨middle, hlist, hparen⟩ := hshows.exists_of_append
  -- the closing parenthesis ends the last subscript
  have hcloses : Closes openPower middle :=
    .of_shows hparen (by decide) (by decide) fun power hsome => by cases hsome
  obtain ⟨values, last, hrun, hmoves, rfl, hsame⟩ := exists_commaRun hne h harrays hlist hcloses
  obtain ⟨hkind, -, hrest⟩ := hparen.peek
  refine ⟨values, last.advance, ?_, drift_moves.trans hmoves (drift_moves.advance _),
    hrest.eq_of_nil, hsame⟩
  have hleads := expression_keeps growth_leads.toDrift (levels + 1)
  have hitem := nextExpression_keeps growth_leads.toDrift hleads openPower
  -- and it is no comma, so the list ends as well
  have hcomma : last.peek.kind ≠ .sym .comma := by
    rw [hkind]
    decide
  simp only [subscripts, bind_eq_ok, expect_eq_ok]
  exact ⟨values, last, hrun.commaList hitem hcomma, last.peek, last.advance, ⟨hkind, rfl, rfl⟩, rfl⟩

/-- A group, the opening parenthesis being the current token. -/
theorem exists_grouped (h : Yields declared levels openPower faces expression)
    (harrays : cursor.isArray = declared)
    (hshows : Shows (faces ++ [(.sym .rparen, Symbol.rparen.spelling)]) cursor.rest others) :
    ∃ value last, grouped (Grammar.expression (levels + 1)) cursor = .ok value last ∧
      Finds cursor others expression value last := by
  obtain ⟨middle, hinside, hparen⟩ := hshows.exists_of_append
  have hcloses : Closes openPower middle :=
    .of_shows hparen (by decide) (by decide) fun power hsome => by cases hsome
  obtain ⟨value, last, hrun, hmoves, rfl, hsame⟩ := h.next harrays hinside hcloses
  obtain ⟨hkind, -, hrest⟩ := hparen.peek
  refine ⟨value, last.advance, ?_, drift_moves.trans hmoves (drift_moves.advance _),
    hrest.eq_of_nil, hsame⟩
  simp only [grouped, bind_eq_ok, expect_eq_ok]
  exact ⟨value, last, hrun, last.peek, last.advance, ⟨hkind, rfl, rfl⟩, rfl⟩

/-- The loop comes to a group at once, whatever stands around it. The group is a level of its
own. -/
theorem Yields.starts_group (h : Yields declared levels openPower faces expression) :
    Starts declared (levels + 1) power bound ((.sym .lparen, Symbol.lparen.spelling) ::
      (faces ++ [(.sym .rparen, Symbol.rparen.spelling)])) expression := by
  intro cursor others harrays hshows _
  obtain ⟨hkind, -, hrest⟩ := hshows.current
  obtain ⟨value, last, hrun, hfinds⟩ := exists_grouped h harrays hrest
  refine ⟨value, last, expressionRule_of_operand ?_ power, hfinds⟩
  rw [operand_apply, hkind]
  exact hrun

/-- The digits of an integer have its value, which is within the limit. -/
theorem integerValue?_of_isSpellable {literal : IntLit} (h : literal.isSpellable = true) :
    integerValue? literal.literal = some literal.value := by
  simp only [IntLit.isSpellable, isDigits, Bool.and_eq_true, Bool.not_eq_true',
    List.isEmpty_eq_false_iff, decide_eq_true_eq, beq_iff_eq, and_assoc] at h
  obtain ⟨hne, hdigits, hlimit, hvalue⟩ := h
  rw [integerValue?, if_pos ⟨hne, hdigits, Nat.lt_succ_of_le hlimit⟩, hvalue]

/-- Wherever the expression needs no parentheses, it is what the parser comes to. -/
def Written (declared : String → Bool) (gap : Nat) (expression : Expr) : Prop :=
  ∀ levels power, expression.levels ≤ levels → power ≤ unaryPower →
    expression.isWeaker (power + 1) = false →
    Starts declared levels power expression.strength (Mark.faces (expression.marks gap)) expression

namespace Written

variable {gap : Nat}

/-- The marks of an expression give it back if the nesting limit is far enough. -/
theorem yields (h : Written declared gap expression) (hlevels : expression.levels ≤ levels) :
    Yields declared levels openPower (Mark.faces (expression.marks gap)) expression := by
  have hweak := expression.isWeaker_one
  exact (h levels openPower hlevels (by decide) hweak).yields (Nat.zero_le _)

/-- An operand, in parentheses or not. Without parentheses it has to hold together against the
operators on both sides of it. -/
theorem group (h : Written declared gap expression) {needed : Bool}
    (hlevels : groupLevels needed expression.levels ≤ levels) (hpower : power ≤ unaryPower)
    (hplain : needed = false →
      expression.isWeaker (power + 1) = false ∧ bound ≤ expression.strength) :
    Starts declared levels power bound
      (Mark.faces (Mark.group gap needed (expression.marks gap))) expression := by
  cases needed with
  | false =>
    obtain ⟨hweak, hbound⟩ := hplain rfl
    exact (h levels power hlevels hpower hweak).mono hbound
  | true =>
    rw [faces_group]
    -- the parentheses take one level, which leaves the others to what is in them
    obtain ⟨fewer, rfl⟩ : ∃ fewer, levels = fewer + 1 := by
      refine ⟨levels - 1, ?_⟩
      simp only [groupLevels, if_true] at hlevels
      omega
    have hfewer : expression.levels ≤ fewer := by simpa [groupLevels] using hlevels
    exact (h.yields hfewer).starts_group

/-- A number is written as its literal. -/
theorem int {literal : IntLit} (h : literal.isSpellable = true) :
    Written declared gap (.int literal) := by
  intro levels power _ _ _ cursor others harrays hshows _
  obtain ⟨hkind, hliteral, hrest⟩ := hshows.current
  change cursor.current.kind = .num at hkind
  change cursor.current.literal = literal.literal at hliteral
  refine ⟨.int ⟨literal.value, cursor.current.literal, cursor.current.loc⟩, cursor,
    expressionRule_of_operand ?_ power, drift_moves.refl _, hrest.eq_of_nil, ?_⟩
  · -- the literal is within the range of a number, so it is read as one
    rw [operand_apply, hkind]
    dsimp only
    rw [bind_apply, integer_apply, hliteral, integerValue?_of_isSpellable h]
    rfl
  · rw [hliteral]
    rfl

/-- A string is written between quotes, whatever is in it. -/
theorem str {text : String} {loc : Location} : Written declared gap (.str text loc) := by
  intro levels power _ _ _ cursor others harrays hshows _
  obtain ⟨hkind, hliteral, hrest⟩ := hshows.current
  change cursor.current.kind = .str at hkind
  change cursor.current.literal = text at hliteral
  refine ⟨.str cursor.current.literal cursor.current.loc, cursor,
    expressionRule_of_operand ?_ power, drift_moves.refl _, hrest.eq_of_nil, ?_⟩
  · rw [operand_apply, hkind]
  · rw [hliteral]
    rfl

/-- The lexeme of a sign starts a unary operation. -/
theorem operand_lexeme {inner : Nat → Parse Expr} {op : UnaryOp}
    (h : cursor.current.kind = op.lexeme.kind) : operand inner cursor = unary inner op cursor := by
  rw [operand_apply, h]
  cases op <;> rfl

/-- A unary operation is written if its operand is. -/
theorem unary {op : UnaryOp} {loc : Location} (h : Written declared gap expression) :
    Written declared gap (.unary op expression loc) := by
  intro levels power hlevels _ _ cursor others harrays hshows hcloses
  rw [Expr.levels] at hlevels
  obtain ⟨fewer, rfl⟩ : ∃ fewer, levels = fewer + 1 := ⟨levels - 1, by omega⟩
  obtain ⟨hkind, -, hrest⟩ := hshows.current
  -- the operand is parsed at the power of prefix operators, one level further down
  have hyields : Yields declared fewer unaryPower
      (Mark.faces (Mark.group gap (expression.isWeaker unaryPower) (expression.marks gap)))
      expression := by
    refine (h.group (by omega) (Nat.le_refl _) fun hplain => ?_).yields (Nat.le_refl _)
    exact ⟨Expr.isWeaker_unaryPower hplain _, Expr.le_strength hplain (Nat.le_refl _)⟩
  obtain ⟨value, last, hrun, hfinds⟩ := hyields.next harrays hrest hcloses
  refine ⟨.unary op value cursor.current.loc, last, expressionRule_of_operand ?_ power,
    hfinds.moves, hfinds.rest, ?_⟩
  · rw [operand_lexeme hkind, Grammar.unary, bind_apply, current_apply]
    dsimp only
    rw [bind_apply, hrun]
    rfl
  · rw [Expr.unplaced_unary, Expr.unplaced_unary, hfinds.same]

/-- A binary operation is written if both sides are, each with the parentheses that it needs. -/
theorem binary {op : BinaryOp} {left right : Expr} {loc : Location}
    (hleft : Written declared gap left) (hright : Written declared gap right) :
    Written declared gap (.binary op left right loc) := by
  intro levels power hlevels hpower hweak cursor others harrays hshows hcloses
  have hpower' : power < op.power := Nat.lt_of_succ_le (Nat.le_of_not_lt (of_decide_eq_false hweak))
  have hop := op.power_lt_unaryPower
  rw [Expr.levels, Nat.max_le] at hlevels
  obtain ⟨fewer, rfl⟩ : ∃ fewer, levels = fewer + 1 := ⟨levels - 1, by omega⟩
  rw [Expr.marks, Mark.faces_append, Mark.faces_space, Mark.faces_token, Mark.faces_space] at hshows
  obtain ⟨middle, hshown, hshows⟩ := hshows.exists_of_append
  -- the loop comes to the left operand, which the operator does not extend from within
  have hstarts : Starts declared (fewer + 1) power op.power
      (Mark.faces (Mark.group gap (left.isWeaker op.power) (left.marks gap))) left := by
    refine hleft.group hlevels.1 hpower fun hplain => ⟨Expr.isWeaker_mono hplain hpower', ?_⟩
    exact Expr.le_strength hplain (Nat.le_of_lt hop)
  -- the operator itself stands behind it, and it binds no stronger than it does
  have hmiddle : Closes op.power middle := by
    refine .of_shows hshows ?_ ?_ fun stronger hsome => ?_
    · cases op <;> exact Token.Kind.noConfusion
    · cases op <;> exact Token.Kind.noConfusion
    · rw [BinaryOp.extensionPower?_lexeme, Option.some.injEq] at hsome
      exact Nat.le_of_eq hsome.symm
  obtain ⟨value, last, hrule, hmoves, rfl, hsame⟩ := hstarts cursor middle harrays hshown hmiddle
  obtain ⟨hkind, -, hrest⟩ := hshows.peek
  -- it goes on with the operator and with the right operand
  have hyields : Yields declared fewer op.power
      (Mark.faces (Mark.group gap (right.isWeaker (op.power + 1)) (right.marks gap))) right := by
    refine (hright.group (by omega) (Nat.le_of_lt hop) fun hplain => ⟨hplain, ?_⟩).yields
      (Nat.le_succ _)
    exact Expr.le_strength hplain hop
  have harrays' : last.advance.isArray = declared := hmoves.isArray.trans harrays
  obtain ⟨value', last', hrun, hfinds⟩ := hyields.next harrays' hrest
    (hcloses.mono (Nat.le_refl _))
  have hextend : extend (Grammar.expression (fewer + 1)) value last =
      .ok (.binary op value value' last.peek.loc) last' := by
    rw [extend, bind_apply, advance_apply]
    dsimp only
    rw [hkind, op.ofKind?_lexeme]
    dsimp only
    rw [bind_apply, hrun]
    rfl
  -- the whole is written without parentheses, so the operator binds stronger than `power`
  have hmore : canExtend power last = true := by
    refine canExtend_iff.2 ⟨op.power, ?_, hpower'⟩
    rw [hkind]
    exact op.extensionPower?_lexeme
  refine ⟨_, last', hrule.trans (iterate_extend (expression_keeps drift_moves _) hmore hextend), ?_,
    hfinds.rest, ?_⟩
  · exact drift_moves.trans hmoves (drift_moves.trans (drift_moves.advance _) hfinds.moves)
  · rw [Expr.unplaced_binary, Expr.unplaced_binary, hsame, hfinds.same]

/-- A name alone is a variable, unless it is that of an array and a subscript follows or it is
not and a bare argument follows. -/
theorem operand_name {inner : Nat → Parse Expr} (hkind : cursor.current.kind = .ident)
    (harray : cursor.isArray cursor.current.literal = true → cursor.peek.kind ≠ .sym .lparen)
    (hident : cursor.peek.kind ≠ .ident) (hnum : cursor.peek.kind ≠ .num) :
    operand inner cursor = .ok (.var cursor.current.literal [] cursor.current.loc) cursor := by
  rw [operand_apply, hkind]
  dsimp only
  simp only [named, bind_apply, current_apply, peek_apply, get_apply]
  split
  next hdeclared =>
    rw [if_neg (harray hdeclared)]
    rfl
  next =>
    rw [if_neg (by simp [hident, hnum])]
    rfl

/-- A name without subscripts is written as it is, whether or not it is declared. -/
theorem name {name : String} {loc : Location} : Written declared gap (.var name [] loc) := by
  intro levels power _ _ _ cursor others harrays hshows hcloses
  obtain ⟨hkind, hliteral, hrest⟩ := hshows.current
  change cursor.current.literal = name at hliteral
  rw [← hrest.eq_of_nil] at hcloses
  obtain ⟨hident, hnum, hextension⟩ := hcloses.peek
  -- an opening parenthesis would bind stronger than anything and make a call of the name
  have hparen : cursor.peek.kind ≠ .sym .lparen := by
    intro hparen
    rw [hparen] at hextension
    exact absurd (hextension callPower rfl) (show ¬callPower ≤ unaryPower by decide)
  refine ⟨_, cursor, expressionRule_of_operand
    (operand_name hkind (fun _ => hparen) hident hnum) power, drift_moves.refl _,
    hrest.eq_of_nil, ?_⟩
  rw [hliteral]
  rfl

/-- Each expression of a list is one level below it. -/
theorem levels_of_mem {expressions : List Expr} (hlevels : Expr.listLevels expressions ≤ levels) :
    ∀ e ∈ expressions, e.levels + 1 ≤ levels := by
  induction expressions with
  | nil => simp
  | cons head tail ih =>
    rw [Expr.listLevels, Nat.max_le] at hlevels
    exact List.forall_mem_cons.2 ⟨hlevels.1, ih hlevels.2⟩

/-- The members of a list are one level further down. -/
theorem exists_yields {expressions : List Expr} (hne : expressions ≠ [])
    (h : ∀ e ∈ expressions, Written declared gap e)
    (hlevels : Expr.listLevels expressions ≤ levels) :
    ∃ fewer, levels = fewer + 1 ∧
      ∀ e ∈ expressions, Yields declared fewer openPower (Mark.faces (e.marks gap)) e := by
  have hmem := levels_of_mem hlevels
  obtain ⟨first, hfirst⟩ := List.exists_mem_of_ne_nil _ hne
  have hpos := hmem first hfirst
  refine ⟨levels - 1, by omega, fun e he => (h e he).yields ?_⟩
  have hle := hmem e he
  omega

/-- An array element is written if its array is declared and its subscripts are written. -/
theorem element {name : String} {indices : List Expr} {loc : Location} (hne : indices ≠ [])
    (hname : declared name = true) (h : ∀ e ∈ indices, Written declared gap e) :
    Written declared gap (.var name indices loc) := by
  intro levels power hlevels _ _ cursor others harrays hshows _
  -- the subscripts are read one level down, so there is a level for the element itself
  obtain ⟨fewer, rfl, hyields⟩ := exists_yields hne h hlevels
  rw [Expr.marks, Mark.faces_token, if_neg (by simpa using hne)] at hshows
  obtain ⟨hkind, hliteral, hrest⟩ := hshows.current
  change cursor.current.kind = .ident at hkind
  change cursor.current.literal = name at hliteral
  obtain ⟨hparen, -, hlist⟩ := Shows.peek hrest
  change cursor.peek.kind = .sym .lparen at hparen
  have harrays' : cursor.advance.isArray = declared := harrays
  obtain ⟨values, last, hrun, hmoves, hlast, hsame⟩ := exists_subscripts hne hyields harrays' hlist
  refine ⟨.var name values cursor.current.loc, last, expressionRule_of_operand ?_ power,
    drift_moves.trans (drift_moves.advance _) hmoves, hlast, ?_⟩
  · -- a declared name with a parenthesis behind it is read with subscripts
    rw [operand_apply, hkind]
    dsimp only
    simp only [named, bind_apply, current_apply, peek_apply, get_apply]
    rw [if_pos (by rw [harrays, hliteral, hname]), if_pos hparen, bind_apply, advance_apply]
    dsimp only
    rw [bind_apply, hrun, hliteral]
    rfl
  · rw [Expr.unplaced_var, Expr.unplaced_var, hsame]

/-- The arguments of a call, the opening parenthesis being the current token. -/
theorem exists_arguments {arguments : List Expr} (h : ∀ e ∈ arguments, Written declared gap e)
    (hlevels : Expr.listLevels arguments ≤ levels) (harrays : cursor.isArray = declared)
    (hshows : Shows (Mark.faces (Expr.listMarks gap arguments ++ [.symbol .rparen])) cursor.rest
      others) :
    ∃ values last, Grammar.arguments (Grammar.expression levels) cursor = .ok values last ∧
      Moves cursor last ∧ last.rest = others ∧
      values.map Expr.unplaced = arguments.map Expr.unplaced := by
  rw [Grammar.arguments, bind_apply, peek_apply]
  dsimp only
  by_cases hne : arguments = []
  · subst hne
    obtain ⟨hkind, -, hrest⟩ := Shows.peek hshows
    change cursor.peek.kind = .sym .rparen at hkind
    rw [if_pos hkind]
    exact ⟨[], cursor.advance, rfl, drift_moves.advance _, hrest.eq_of_nil, rfl⟩
  · obtain ⟨fewer, rfl, hyields⟩ := exists_yields hne h hlevels
    obtain ⟨values, last, hrun, hlast⟩ := exists_subscripts hne hyields harrays hshows
    refine ⟨values, last, ?_, hlast⟩
    -- a list that is not empty does not start with its closing parenthesis
    split
    next hkind =>
      simp only [subscripts, expressionList, commaList, nextExpression, bind_eq_ok,
        peek_apply] at hrun
      obtain ⟨_, _, ⟨_, _, ⟨_, _, ⟨⟩, hitem⟩, -⟩, -⟩ := hrun
      rw [hkind] at hitem
      exact absurd hkind (kind_of_expression hitem).2
    next => exact hrun

/-- A call is written if its function is not declared as an array and its arguments are written. -/
theorem call {function : String} {arguments : List Expr} {loc : Location}
    (hname : declared function = false) (h : ∀ e ∈ arguments, Written declared gap e) :
    Written declared gap (.call function arguments loc) := by
  intro levels power hlevels hpower _ cursor others harrays hshows _
  rw [Expr.marks] at hshows
  obtain ⟨hkind, hliteral, hrest⟩ := Shows.current hshows
  change cursor.current.kind = .ident at hkind
  change cursor.current.literal = function at hliteral
  obtain ⟨hparen, -, hlist⟩ := Shows.peek hrest
  change cursor.peek.kind = .sym .lparen at hparen
  -- the loop comes to the name alone, and goes on with the list
  have hoperand : operand (Grammar.expression levels) cursor =
      .ok (.var function [] cursor.current.loc) cursor := by
    rw [← hliteral]
    refine operand_name hkind (fun harray => ?_) (by rw [hparen]; decide) (by rw [hparen]; decide)
    rw [harrays, hliteral, hname] at harray
    cases harray
  have harrays' : cursor.advance.isArray = declared := harrays
  obtain ⟨values, last, hrun, hmoves, hlast, hsame⟩ := exists_arguments h hlevels harrays' hlist
  have hextend : extend (Grammar.expression levels) (.var function [] cursor.current.loc) cursor =
      .ok (.call function values cursor.current.loc) last := by
    rw [extend, bind_apply, advance_apply]
    dsimp only
    rw [hparen]
    change called _ _ cursor.advance = _
    rw [called_apply]
    dsimp only
    rw [bind_apply, hrun]
    rfl
  have hmore : canExtend power cursor = true := by
    refine canExtend_iff.2 ⟨callPower, ?_, Nat.lt_succ_of_le hpower⟩
    rw [hparen]
    rfl
  refine ⟨_, last, (expressionRule_of_operand hoperand power).trans
    (iterate_extend (expression_keeps drift_moves _) hmore hextend),
    drift_moves.trans (drift_moves.advance _) hmoves, hlast, ?_⟩
  rw [Expr.unplaced_call, Expr.unplaced_call, hsame]

end Written

/-- A written expression is what the parser comes to. -/
theorem written_of_isSpellable (declared : String → Bool) (gap : Nat) (expression : Expr)
    (h : expression.isSpellable declared = true) : Written declared gap expression := by
  induction expression using Expr.induction with
  | var name indices loc ih =>
    simp only [Expr.isSpellable, Bool.and_eq_true, Bool.or_eq_true, List.isEmpty_iff] at h
    obtain ⟨⟨-, hdeclared⟩, hindices⟩ := h
    -- the name of an array can stand alone too
    rcases hdeclared with rfl | hdeclared
    · exact .name
    · by_cases hne : indices = []
      · subst hne
        exact .name
      · exact .element hne hdeclared fun e he => ih e he (Expr.isSpellable_of_mem hindices e he)
  | int literal => exact .int h
  | str text loc => exact .str
  | unary op operand loc ih => exact .unary (ih h)
  | binary op left right loc ih ih' =>
    rw [Expr.isSpellable, Bool.and_eq_true] at h
    exact .binary (ih h.1) (ih' h.2)
  | call function arguments loc ih =>
    simp only [Expr.isSpellable, Bool.and_eq_true, Bool.not_eq_true'] at h
    obtain ⟨⟨-, hdeclared⟩, harguments⟩ := h
    exact .call hdeclared fun e he => ih e he (Expr.isSpellable_of_mem harguments e he)

/-- The parser finds a written expression in its tokens. -/
theorem yields_of_isSpellable (gap : Nat) (h : expression.isSpellable declared = true)
    (hlevels : expression.levels ≤ levels) :
    Yields declared levels openPower (Mark.faces (expression.marks gap)) expression :=
  (written_of_isSpellable declared gap expression h).yields hlevels

end Grammar

end LineBasic
