import LineBasic.Proofs.Grammar.Run

/-!
# Where parsers can go

Whatever a parser does, and whether it succeeds or fails, its cursor only moves on token by
token, notes events and declares arrays. A relation between cursors that these steps respect
therefore holds between the two ends of every run: `expression_keeps` and `statement_keeps`
say so for the whole grammar, once for all relations.

Two relations are read off: expressions do nothing but move on (`Cursor.Moves`), and statements
never go back and never take anything out of the tables (`Cursor.Leads`).
-/

namespace LineBasic

variable {R : Cursor → Cursor → Prop}

namespace Cursor

/-- A relation between an earlier and a later cursor that moving on respects. -/
structure Drift (R : Cursor → Cursor → Prop) : Prop where
  refl : ∀ cursor, R cursor cursor
  trans : ∀ {first middle last}, R first middle → R middle last → R first last
  advance : ∀ cursor, R cursor cursor.advance

/-- A drift that notes and declarations respect as well. -/
structure Growth (R : Cursor → Cursor → Prop) : Prop extends Drift R where
  note : ∀ cursor event, R cursor (cursor.note event)
  declare : ∀ cursor name loc dimensions, R cursor (cursor.declare name loc dimensions)

/-- Taking in a colon respects a drift: it is one step forward or none. -/
theorem Drift.skipSeparator (h : Drift R) (cursor : Cursor) : R cursor cursor.skipSeparator := by
  unfold Cursor.skipSeparator
  split
  · exact h.advance cursor
  · exact h.refl cursor

/-- Going on to the next end of a statement respects a drift, as many steps forward do. -/
theorem Drift.beforeTerminator (h : Drift R) (cursor : Cursor) :
    R cursor { cursor with tokens := beforeTerminator cursor.tokens } := by
  obtain ⟨tokens, finish, arrays, journal⟩ := cursor
  fun_induction Cursor.beforeTerminator tokens with
  | case1 => exact h.refl _
  | case2 token next rest _ ih => exact h.trans (h.advance _) ih
  | case3 => exact h.refl _

/-- Giving up a statement respects a drift. -/
theorem Drift.synchronize (h : Drift R) (cursor : Cursor) : R cursor cursor.synchronize := by
  unfold Cursor.synchronize
  split
  · exact h.refl cursor
  · exact h.trans (h.beforeTerminator cursor) (h.skipSeparator _)

end Cursor

open Cursor

namespace Parse

variable {α β : Type} {x : Parse α}

/-- The cursor at the end of a run, successful or not. -/
def after (x : Parse α) (cursor : Cursor) : Cursor :=
  match x cursor with
  | .ok _ last => last
  | .error _ last => last

/-- Every run of the parser respects the relation. -/
def Keeps (R : Cursor → Cursor → Prop) (x : Parse α) : Prop :=
  ∀ cursor, R cursor (x.after cursor)

/-- A run that succeeds ends at its last cursor. -/
theorem after_of_ok {cursor last : Cursor} {value : α} (h : x cursor = .ok value last) :
    x.after cursor = last := by
  simp [after, h]

theorem after_of_error {cursor last : Cursor} {diagnostic : Diagnostic}
    (h : x cursor = .error diagnostic last) : x.after cursor = last := by
  simp [after, h]

/-- What a parser keeps holds from the start of a successful run to its end. -/
theorem Keeps.of_ok (h : x.Keeps R) {cursor last : Cursor} {value : α}
    (hx : x cursor = .ok value last) : R cursor last :=
  after_of_ok hx ▸ h cursor

theorem Keeps.of_error (h : x.Keeps R) {cursor last : Cursor} {diagnostic : Diagnostic}
    (hx : x cursor = .error diagnostic last) : R cursor last :=
  after_of_error hx ▸ h cursor

theorem Keeps.pure (h : Drift R) (value : α) : Keeps R (Pure.pure value : Parse α) := h.refl

theorem Keeps.get (h : Drift R) : Keeps R (MonadState.get : Parse Cursor) := h.refl

theorem Keeps.current (h : Drift R) : Keeps R Parse.current := h.refl

theorem Keeps.peek (h : Drift R) : Keeps R Parse.peek := h.refl

theorem Keeps.advance (h : Drift R) : Keeps R Parse.advance := h.advance

theorem Keeps.fail (h : Drift R) (cause : Cause) (loc : Location) :
    Keeps R (Parse.fail cause loc : Parse α) := h.refl

theorem Keeps.skipSeparator (h : Drift R) : Keeps R Parse.skipSeparator := h.skipSeparator

/-- A sequence keeps what each of its parts keeps. -/
theorem Keeps.bind (h : Drift R) {f : α → Parse β} (hx : x.Keeps R)
    (hf : ∀ value, (f value).Keeps R) : Keeps R (x >>= f) := by
  intro cursor
  cases hfirst : x cursor with
  | ok value middle =>
    -- two runs, one after the other
    have hlast : (x >>= f).after cursor = (f value).after middle := by
      simp only [after, bind_apply, hfirst]
    rw [hlast]
    exact h.trans (hx.of_ok hfirst) (hf value middle)
  | error diagnostic middle =>
    -- a fault ends the run where it is found
    have hlast : (x >>= f).after cursor = middle := by
      simp only [after, bind_apply, hfirst]
    rw [hlast]
    exact hx.of_error hfirst

/-- Changing the value that a parser gives does not change what it keeps. -/
theorem Keeps.map (h : Drift R) {f : α → β} (hx : x.Keeps R) : Keeps R (f <$> x) := by
  rw [map_eq_pure_bind]
  exact .bind h hx fun _ => .pure h _

/-- Asking for a token respects a drift, whether or not it is there. -/
theorem Keeps.expect (h : Drift R) (kind : Token.Kind) : Keeps R (Parse.expect kind) := by
  refine .bind h (.peek h) fun next => ?_
  split
  · exact .advance h
  · exact .fail h _ _

/-- A step that cannot fail keeps what holds between its two cursors. -/
theorem Keeps.ofStep {step : Cursor → α × Cursor} (h : ∀ cursor, R cursor (step cursor).2) :
    Keeps R (Parse.ofStep step) := h

/-- A bounded loop over items keeps what each item keeps. -/
theorem Keeps.manyWithin (h : Drift R) (more : Cursor → Bool) (hx : x.Keeps R) (limit : Nat) :
    Keeps R (Parse.manyWithin more x limit) := by
  induction limit with
  | zero => exact .pure h _
  | succ limit ih =>
    refine .bind h (.get h) fun cursor => ?_
    split
    · exact .bind h hx fun _ => .bind h ih fun _ => .pure h _
    · exact .pure h _

/-- A loop over items keeps what each item keeps. -/
theorem Keeps.many (h : Drift R) (more : Cursor → Bool) (hx : x.Keeps R) :
    Keeps R (Parse.many more x) :=
  .bind h (.get h) fun _ => .manyWithin h more hx _

/-- A list with commas keeps what each item keeps. -/
theorem Keeps.commaList (h : Drift R) (hx : x.Keeps R) : Keeps R (Parse.commaList x) :=
  .bind h hx fun _ => .bind h (.many h _ (.bind h (.advance h) fun _ => hx)) fun _ => .pure h _

/-- A bounded loop from a value keeps what each of its steps keeps. -/
theorem Keeps.iterateWithin (h : Drift R) (more : Cursor → Bool) {step : α → Parse α}
    (hstep : ∀ value, (step value).Keeps R) (limit : Nat) (value : α) :
    Keeps R (Parse.iterateWithin more step limit value) := by
  induction limit generalizing value with
  | zero => exact .pure h _
  | succ limit ih =>
    refine .bind h (.get h) fun cursor => ?_
    split
    · exact .bind h (hstep value) ih
    · exact .pure h _

/-- A loop from a value keeps what each of its steps keeps. -/
theorem Keeps.iterate (h : Drift R) (more : Cursor → Bool) {step : α → Parse α}
    (hstep : ∀ value, (step value).Keeps R) (value : α) :
    Keeps R (Parse.iterate more step value) :=
  .bind h (.get h) fun _ => .iterateWithin h more hstep _ value

end Parse

open Parse

namespace Grammar

/-! ## Expressions -/

section Expressions

variable {inner : Nat → Parse Expr}

/-- Failing for want of levels moves nothing. -/
theorem tooDeep_keeps (h : Drift R) {α : Type} : Keeps R (tooDeep : Parse α) :=
  .bind h (.current h) fun _ => .fail h _ _

/-- Reading an integer off the current token moves nothing. -/
theorem integer_keeps (h : Drift R) : Keeps R integer := by
  refine .bind h (.current h) fun token => ?_
  split
  · exact .pure h _
  · exact .fail h _ _

/-- The next expression keeps what the parser of expressions keeps. -/
theorem nextExpression_keeps (h : Drift R) (hinner : ∀ power, Keeps R (inner power))
    (power : Nat) : Keeps R (nextExpression inner power) := by
  refine .bind h (.peek h) fun next => ?_
  split
  · exact .fail h _ _
  · exact .bind h (.advance h) fun _ => hinner power

/-- A list of expressions keeps what the parser of expressions keeps. -/
theorem expressionList_keeps (h : Drift R) (hinner : ∀ power, Keeps R (inner power)) :
    Keeps R (expressionList inner) :=
  .commaList h (nextExpression_keeps h hinner _)

theorem subscripts_keeps (h : Drift R) (hinner : ∀ power, Keeps R (inner power)) :
    Keeps R (subscripts inner) :=
  .bind h (expressionList_keeps h hinner) fun _ => .bind h (.expect h _) fun _ => .pure h _

/-- Arguments in parentheses keep what the parser of expressions keeps. -/
theorem arguments_keeps (h : Drift R) (hinner : ∀ power, Keeps R (inner power)) :
    Keeps R (arguments inner) := by
  refine .bind h (.peek h) fun next => ?_
  split
  · exact .bind h (.advance h) fun _ => .pure h _
  · exact subscripts_keeps h hinner

/-- An operand that starts with a name keeps what the parser of expressions keeps. -/
theorem named_keeps (h : Drift R) (hinner : ∀ power, Keeps R (inner power)) :
    Keeps R (named inner) := by
  refine .bind h (.current h) fun token => .bind h (.peek h) fun next =>
    .bind h (.get h) fun cursor => ?_
  split
  · split
    · exact .bind h (.advance h) fun _ => .bind h (subscripts_keeps h hinner) fun _ => .pure h _
    · exact .pure h _
  · split
    · exact .bind h (expressionList_keeps h hinner) fun _ => .pure h _
    · exact .pure h _

theorem grouped_keeps (h : Drift R) (hinner : ∀ power, Keeps R (inner power)) :
    Keeps R (grouped inner) :=
  .bind h (nextExpression_keeps h hinner _) fun _ => .bind h (.expect h _) fun _ => .pure h _

theorem unary_keeps (h : Drift R) (hinner : ∀ power, Keeps R (inner power)) (op : UnaryOp) :
    Keeps R (unary inner op) :=
  .bind h (.current h) fun _ => .bind h (nextExpression_keeps h hinner _) fun _ => .pure h _

/-- Every operand keeps what the parser of expressions keeps. -/
theorem operand_keeps (h : Drift R) (hinner : ∀ power, Keeps R (inner power)) :
    Keeps R (operand inner) := by
  refine .bind h (.current h) fun token => ?_
  split
  · exact named_keeps h hinner
  · exact .bind h (integer_keeps h) fun _ => .pure h _
  · exact .pure h _
  · exact grouped_keeps h hinner
  · exact .fail h _ _
  · split
    · exact unary_keeps h hinner _
    · exact .fail h _ _

/-- The arguments of a call keep what the parser of expressions keeps. -/
theorem called_keeps (h : Drift R) (hinner : ∀ power, Keeps R (inner power)) (function : Expr) :
    Keeps R (called inner function) := by
  unfold called
  split
  · exact .bind h (arguments_keeps h hinner) fun _ => .pure h _
  · exact .fail h _ _

/-- An extension of an expression keeps what the parser of expressions keeps. -/
theorem extend_keeps (h : Drift R) (hinner : ∀ power, Keeps R (inner power)) (left : Expr) :
    Keeps R (extend inner left) := by
  refine .bind h (.advance h) fun token => ?_
  split
  · exact .bind h (nextExpression_keeps h hinner _) fun _ => .pure h _
  · exact called_keeps h hinner left

/-- A run of the expression parser respects every relation that moving on respects. -/
theorem expression_keeps (h : Drift R) (levels power : Nat) :
    Keeps R (expression levels power) := by
  induction levels generalizing power with
  | zero => exact tooDeep_keeps h
  | succ levels ih =>
    exact .bind h (operand_keeps h ih) fun left => .iterate h _ (extend_keeps h ih) left

end Expressions

/-! ## Statements -/

section Statements

/-- The label of a jump respects a drift. -/
theorem jumpTarget_keeps (h : Drift R) : Keeps R jumpTarget := by
  refine .bind h (.peek h) fun next => ?_
  split
  · exact .bind h (.advance h) fun _ => .bind h (.expect h _) fun _ => .pure h _
  · exact .bind h (.expect h _) fun _ => .pure h _

/-- A line number, with or without data, respects a drift. -/
theorem lineNumber_keeps (h : Drift R) : Keeps R lineNumber := by
  refine .bind h (.current h) fun token => .bind h (.peek h) fun next => ?_
  split
  · exact .bind h (.advance h) fun _ => .bind h (.skipSeparator h) fun _ => .pure h _
  · exact .pure h _

theorem label_keeps (h : Drift R) : Keeps R label :=
  .bind h (.current h) fun _ => .bind h (.expect h _) fun _ => .bind h (.skipSeparator h)
    fun _ => .pure h _

theorem arraySize_keeps (h : Drift R) : Keeps R arraySize :=
  .bind h (.expect h _) fun _ => integer_keeps h

/-- The declaration of an array adds to the table, so it respects what growing respects. -/
theorem arrayDecl_keeps (h : Growth R) : Keeps R arrayDecl := by
  have hdrift := h.toDrift
  -- the declaration itself is the one step that is not a move
  refine .bind hdrift (.expect hdrift _) fun name => .bind hdrift (.expect hdrift _) fun _ =>
    .bind hdrift (.commaList hdrift (arraySize_keeps hdrift)) fun sizes =>
    .bind hdrift (.expect hdrift _) fun _ => .bind hdrift ?_ fun _ => .pure hdrift _
  intro cursor
  exact h.declare cursor name.literal name.loc sizes.length

/-- A `DIM` respects what growing respects. -/
theorem dim_keeps (h : Growth R) : Keeps R dim :=
  .bind h.toDrift (.current h.toDrift) fun _ =>
    .bind h.toDrift (.commaList h.toDrift (arrayDecl_keeps h)) fun _ =>
    .bind h.toDrift (.skipSeparator h.toDrift) fun _ => .pure h.toDrift _

theorem goto_keeps (h : Drift R) : Keeps R goto :=
  .bind h (.current h) fun _ => .bind h (jumpTarget_keeps h) fun _ =>
    .bind h (.skipSeparator h) fun _ => .pure h _

theorem gosub_keeps (h : Drift R) : Keeps R gosub :=
  .bind h (.current h) fun _ => .bind h (jumpTarget_keeps h) fun _ =>
    .bind h (.skipSeparator h) fun _ => .pure h _

/-- The way back from a subroutine respects a drift. -/
theorem ret_keeps (h : Drift R) : Keeps R ret :=
  .bind h (.current h) fun _ => .bind h (.skipSeparator h) fun _ => .pure h _

/-- The word that says which jump an `ON` makes respects a drift. -/
theorem jumpKind_keeps (h : Drift R) : Keeps R jumpKind := by
  refine .bind h (.peek h) fun next => ?_
  split
  · exact .bind h (.advance h) fun _ => .pure h _
  · exact .bind h (.advance h) fun _ => .pure h _
  · exact .fail h _ _

variable {expr : Nat → Parse Expr} {inner : Cursor → Option Statement × Cursor}

/-- The rounds of a block keep what each statement in it keeps. -/
theorem Rounds.keeps {ends : Token.Kind → Bool} {cursor last : Cursor}
    {statements : List Statement} (hrounds : Rounds inner ends cursor statements last)
    (h : Drift R) (hinner : ∀ cursor, R cursor (inner cursor).2) : R cursor last := by
  induction hrounds with
  | nil cursor => exact h.refl cursor
  | cons _ _ ih => exact h.trans (h.advance _) (h.trans (hinner _) ih)

/-- A block keeps what each statement in it keeps. -/
theorem block_keeps (h : Drift R) (hinner : ∀ cursor, R cursor (inner cursor).2)
    (ends : Token.Kind → Bool) : Keeps R (block inner ends) :=
  .ofStep fun _ => (blockWithin_rounds _ _).keeps h hinner

/-- An arm keeps what each statement in it keeps. -/
theorem branch_keeps (h : Drift R) (hinner : ∀ cursor, R cursor (inner cursor).2)
    (ends : Token.Kind → Bool) : Keeps R (branch inner ends) := by
  refine .bind h (.current h) fun token => .bind h (.peek h) fun next => ?_
  split
  · refine .bind h (jumpTarget_keeps h) fun target => .bind h (.skipSeparator h) fun _ =>
      .bind h (block_keeps h hinner ends) fun statements => ?_
    split
    · exact .pure h _
    · exact .pure h _
  · exact .bind h (block_keeps h hinner ends) fun _ => .pure h _

/-- An `IF` keeps what its condition and the statements in its arms keep. -/
theorem cond_keeps (h : Drift R) (hexpr : ∀ power, Keeps R (expr power))
    (hinner : ∀ cursor, R cursor (inner cursor).2) : Keeps R (cond expr inner) := by
  refine .bind h (.current h) fun token => .bind h (nextExpression_keeps h hexpr _) fun _ =>
    .bind h (.expect h _) fun _ => .bind h (branch_keeps h hinner _) fun _ =>
    .bind h (.peek h) fun next => ?_
  split
  · exact .bind h (.advance h) fun _ => .bind h (branch_keeps h hinner _) fun _ => .pure h _
  · exact .pure h _

/-- An `ON` keeps what the expression that it selects by keeps. -/
theorem on_keeps (h : Drift R) (hexpr : ∀ power, Keeps R (expr power)) : Keeps R (on expr) :=
  .bind h (.current h) fun _ => .bind h (nextExpression_keeps h hexpr _) fun _ =>
    .bind h (jumpKind_keeps h) fun _ => .bind h (.commaList h (jumpTarget_keeps h)) fun _ =>
    .bind h (.skipSeparator h) fun _ => .pure h _

/-- The step of a loop, given or not, keeps what the parser of expressions keeps. -/
theorem loopStep_keeps (h : Drift R) (hexpr : ∀ power, Keeps R (expr power)) (loc : Location) :
    Keeps R (loopStep expr loc) := by
  refine .bind h (.peek h) fun next => ?_
  split
  · exact .bind h (.advance h) fun _ => nextExpression_keeps h hexpr _
  · exact .pure h _

/-- The end of the head of a loop respects a drift. -/
theorem loopHeadEnd_keeps (h : Drift R) : Keeps R loopHeadEnd := by
  refine .bind h (.peek h) fun next => ?_
  split
  · exact .pure h _
  · exact .bind h (.expect h _) fun _ => .pure h _

/-- The end of a loop may note a counter of another name, so it respects what growing respects. -/
theorem loopEnd_keeps (h : Growth R) (counter : String) : Keeps R (loopEnd counter) := by
  have hdrift := h.toDrift
  refine .bind hdrift (.expect hdrift _) fun _ => .bind hdrift (.peek hdrift) fun next => ?_
  split
  · refine .bind hdrift (.advance hdrift) fun name => ?_
    split
    · -- another name than that of the counter is noted, and the loop still ends
      refine .bind hdrift ?_ fun _ => .skipSeparator hdrift
      intro cursor
      exact h.note cursor _
    · exact .skipSeparator hdrift
  · exact .skipSeparator hdrift

/-- A loop keeps what its bounds and the statements in its body keep. -/
theorem loop_keeps (h : Growth R) (hexpr : ∀ power, Keeps R (expr power))
    (hinner : ∀ cursor, R cursor (inner cursor).2) : Keeps R (loop expr inner) := by
  have hdrift := h.toDrift
  exact .bind hdrift (.current hdrift) fun _ => .bind hdrift (.expect hdrift _) fun _ =>
    .bind hdrift (.expect hdrift _) fun _ =>
    .bind hdrift (nextExpression_keeps hdrift hexpr _) fun _ =>
    .bind hdrift (.expect hdrift _) fun _ =>
    .bind hdrift (nextExpression_keeps hdrift hexpr _) fun _ =>
    .bind hdrift (loopStep_keeps hdrift hexpr _) fun _ =>
    .bind hdrift (loopHeadEnd_keeps hdrift) fun _ =>
    .bind hdrift (block_keeps hdrift hinner _) fun _ =>
    .bind hdrift (loopEnd_keeps h _) fun _ => .pure hdrift _

/-- The right side of an assignment keeps what the parser of expressions keeps. -/
theorem assignTo_keeps (h : Drift R) (hexpr : ∀ power, Keeps R (expr power)) (target : Token)
    (indices : List Expr) : Keeps R (assignTo expr target indices) :=
  .bind h (.expect h _) fun _ => .bind h (nextExpression_keeps h hexpr _) fun _ =>
    .bind h (.skipSeparator h) fun _ => .pure h _

/-- An assignment to an element keeps what the parser of expressions keeps. -/
theorem assignElement_keeps (h : Drift R) (hexpr : ∀ power, Keeps R (expr power)) :
    Keeps R (assignElement expr) :=
  .bind h (.current h) fun _ => .bind h (.expect h _) fun _ =>
    .bind h (subscripts_keeps h hexpr) fun _ => assignTo_keeps h hexpr _ _

/-- A call as a statement keeps what the parser of expressions keeps. -/
theorem call_keeps (h : Drift R) (hexpr : ∀ power, Keeps R (expr power)) :
    Keeps R (call expr) := by
  refine .bind h (.current h) fun function => .bind h (.peek h) fun next => ?_
  split
  · exact .bind h (.pure h _) fun _ => .bind h (.skipSeparator h) fun _ => .pure h _
  · split
    · exact .bind h (.advance h) fun _ => .bind h (arguments_keeps h hexpr) fun _ =>
        .bind h (.skipSeparator h) fun _ => .pure h _
    · exact .bind h (expressionList_keeps h hexpr) fun _ =>
        .bind h (.skipSeparator h) fun _ => .pure h _

/-- A statement that starts with a name keeps what the parser of expressions keeps. -/
theorem namedStatement_keeps (h : Drift R) (hexpr : ∀ power, Keeps R (expr power)) :
    Keeps R (namedStatement expr) := by
  refine .bind h (.current h) fun token => .bind h (.peek h) fun next => ?_
  split
  · exact assignTo_keeps h hexpr _ _
  · refine .bind h (.get h) fun cursor => ?_
    split
    · exact assignElement_keeps h hexpr
    · exact call_keeps h hexpr

/-- Each kind of statement keeps what its expressions and the statements in it keep. -/
theorem statementRule_keeps (h : Growth R) (hexpr : ∀ power, Keeps R (expr power))
    (hinner : ∀ cursor, R cursor (inner cursor).2) : Keeps R (statementRule expr inner) := by
  have hdrift := h.toDrift
  refine .bind hdrift (.current hdrift) fun token => ?_
  -- one case for each rule, and the tokens that start no statement in the end
  split
  · exact .bind hdrift (.skipSeparator hdrift) fun _ => .pure hdrift _
  · exact .pure hdrift _
  · exact .map hdrift (lineNumber_keeps hdrift)
  · exact .map hdrift (label_keeps hdrift)
  · exact .map hdrift (dim_keeps h)
  · exact .map hdrift (cond_keeps hdrift hexpr hinner)
  · exact .map hdrift (on_keeps hdrift hexpr)
  · exact .map hdrift (goto_keeps hdrift)
  · exact .map hdrift (gosub_keeps hdrift)
  · exact .map hdrift (ret_keeps hdrift)
  · exact .map hdrift (loop_keeps h hexpr hinner)
  · exact .map hdrift (namedStatement_keeps hdrift hexpr)
  · exact .fail hdrift _ _
  · exact .fail hdrift _ _
  · exact .fail hdrift _ _

/-- A statement with what comes of it in the journal keeps what its rule keeps. -/
theorem recover_keeps (h : Growth R) {rule : Parse (Option Statement)} (hrule : Keeps R rule)
    (cursor : Cursor) : R cursor (recover rule cursor).2 := by
  unfold recover
  split
  next statement next hnext => exact h.trans (hrule.of_ok hnext) (h.note _ _)
  next next hnext => exact hrule.of_ok hnext
  next diagnostic next hnext =>
    -- the fault is noted where the run broke off, and the rest of the line is passed over
    exact h.trans (hrule.of_error hnext) (h.trans (h.note _ _) (h.synchronize _))

/-- A run of the statement parser respects every relation that its steps respect. -/
theorem statement_keeps (h : Growth R) (levels : Nat) (cursor : Cursor) :
    R cursor (statement levels cursor).2 := by
  induction levels generalizing cursor with
  | zero => exact recover_keeps h (tooDeep_keeps h.toDrift) cursor
  | succ levels ih =>
    exact recover_keeps h (statementRule_keeps h (expression_keeps h.toDrift levels) ih) cursor

/-- The steps of a program respect whatever growing respects. -/
theorem StepsTo.keeps {cursor last : Cursor} {steps : List Step}
    (hsteps : StepsTo cursor steps last) (h : Growth R) : R cursor last := by
  induction hsteps with
  | nil cursor => exact h.refl cursor
  | cons _ _ ih => exact h.trans (statement_keeps h maxNesting _) (h.trans (h.advance _) ih)

end Statements

end Grammar

/-! ## The two relations -/

namespace Cursor

/-- The later cursor is the earlier one, some tokens further on. -/
structure Moves (earlier later : Cursor) : Prop where
  tokens : later.tokens <:+ earlier.tokens
  finish : later.finish = earlier.finish
  arrays : later.arrays = earlier.arrays
  journal : later.journal = earlier.journal

/-- The later cursor has no tokens that the earlier one had passed, and has all its
declarations and events. -/
structure Leads (earlier later : Cursor) : Prop where
  tokens : later.tokens <:+ earlier.tokens
  finish : later.finish = earlier.finish
  arrays : earlier.arrays <:+ later.arrays
  journal : earlier.journal <:+ later.journal

/-- Moving on in the tokens and nothing else is a drift. -/
theorem drift_moves : Drift Moves where
  refl _ := ⟨List.suffix_rfl, rfl, rfl, rfl⟩
  trans h h' := ⟨h'.tokens.trans h.tokens, h'.finish.trans h.finish, h'.arrays.trans h.arrays,
    h'.journal.trans h.journal⟩
  advance _ := ⟨List.tail_suffix _, rfl, rfl, rfl⟩

/-- Passing tokens, declaring arrays and noting events make up a growth. -/
theorem growth_leads : Growth Leads where
  refl _ := ⟨List.suffix_rfl, rfl, List.suffix_rfl, List.suffix_rfl⟩
  trans h h' := ⟨h'.tokens.trans h.tokens, h'.finish.trans h.finish, h.arrays.trans h'.arrays,
    h.journal.trans h'.journal⟩
  advance _ := ⟨List.tail_suffix _, rfl, List.suffix_rfl, List.suffix_rfl⟩
  note _ _ := ⟨List.suffix_rfl, rfl, List.suffix_rfl, List.suffix_cons _ _⟩
  declare _ _ _ _ := ⟨List.suffix_rfl, rfl, List.suffix_cons _ _, List.suffix_cons _ _⟩

/-- Moving on reports nothing. -/
theorem Moves.diagnostics {earlier later : Cursor} (h : Moves earlier later) :
    later.diagnostics = earlier.diagnostics := by
  rw [Cursor.diagnostics, Cursor.diagnostics, h.journal]

/-- A note reports the diagnostic of its event, if it has one. -/
theorem diagnostics_note (cursor : Cursor) (event : Event) :
    (cursor.note event).diagnostics = cursor.diagnostics ++ event.diagnostic?.toList := by
  cases h : event.diagnostic? <;> simp [diagnostics, note, h]

/-- Nothing has been found wrong so far. -/
def Clean (cursor : Cursor) : Prop :=
  ∀ entry ∈ cursor.journal, entry.event.diagnostic? = none

/-- Nothing is wrong so far if no diagnostic has been reported. -/
theorem clean_iff {cursor : Cursor} : cursor.Clean ↔ cursor.diagnostics = [] := by
  simp [Clean, diagnostics]

/-- What is found wrong stays in the journal. -/
theorem Leads.clean {earlier later : Cursor} (h : Leads earlier later) (hclean : later.Clean) :
    earlier.Clean :=
  fun entry hentry => hclean entry (h.journal.subset hentry)

/-- With the same journal, nothing is wrong at either of two cursors or at both. -/
theorem Clean.of_journal {cursor later : Cursor} (hclean : later.Clean)
    (h : later.journal = cursor.journal) : cursor.Clean := by
  rwa [Clean, ← h]

/-- A recovery is never clean. -/
theorem not_clean_recovered (cursor : Cursor) (diagnostic : Diagnostic) :
    ¬(cursor.note (.recovered diagnostic)).synchronize.Clean := by
  intro hclean
  -- passing over tokens leaves the journal as it is, with the recovery as its latest entry
  have hnote := hclean.of_journal (drift_moves.synchronize _).journal
  exact absurd (hnote _ List.mem_cons_self) (by simp [Event.diagnostic?])

end Cursor

/-- Every step takes in at least one token. -/
theorem Grammar.length_statement_advance_lt {cursor : Cursor} (levels : Nat)
    (h : cursor.current.kind ≠ .eof) :
    (statement levels cursor).2.advance.tokens.length < cursor.tokens.length := by
  have hle := (statement_keeps Cursor.growth_leads levels cursor).tokens.length_le
  have hlt := Cursor.length_rest_lt h
  rw [Cursor.tokens_advance, Cursor.rest, List.length_tail]
  omega

end LineBasic
