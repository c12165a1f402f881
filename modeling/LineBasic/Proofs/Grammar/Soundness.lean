import LineBasic.Proofs.Grammar.Reading
import LineBasic.Proofs.Grammar.Rounds
import LineBasic.Proofs.Token.Order

/-!
# What the parser accepts

A run of the expression parser that succeeds, and a run of the statement parser that records no
diagnostic, have a reading of the tokens they took in (`expression_reads`, `statement_reads`).
So every fact about clean parses can be proved by induction on readings: `exists_reading_of_isClean`
is where such a proof starts.
-/

namespace LineBasic

open Parse

namespace Cursor

theorem has_arrays (cursor : Cursor) : Declarations.has cursor.arrays = cursor.isArray := rfl

/-- Moving on leaves the arrays as they are. -/
theorem Moves.isArray {earlier later : Cursor} (h : Moves earlier later) :
    later.isArray = earlier.isArray := by
  rw [← has_arrays, ← has_arrays, h.arrays]

/-- What a separator leaves is the rest without the colon at its front. -/
@[simp]
theorem rest_skipSeparator (cursor : Cursor) :
    cursor.skipSeparator.rest = afterSeparator cursor.rest := by
  unfold Cursor.skipSeparator
  split
  next h =>
    have hcolon : cursor.peek.kind = .sym .colon := by simpa [peekIs] using h
    rw [rest_eq_cons_of_kind hcolon (by decide), afterSeparator, if_pos hcolon]
  next h =>
    -- no colon comes next; there may be no token left, none but the current one, or another one
    obtain ⟨tokens, finish, arrays, journal⟩ := cursor
    cases tokens with
    | nil => rfl
    | cons token tokens =>
      cases tokens with
      | nil => rfl
      | cons next tokens =>
        have hcolon : next.kind ≠ .sym .colon := by simpa [peekIs, peek] using h
        simp [rest, afterSeparator, hcolon]

@[simp]
theorem arrays_skipSeparator (cursor : Cursor) : cursor.skipSeparator.arrays = cursor.arrays :=
  (drift_moves.skipSeparator cursor).arrays

@[simp]
theorem journal_skipSeparator (cursor : Cursor) : cursor.skipSeparator.journal = cursor.journal :=
  (drift_moves.skipSeparator cursor).journal

end Cursor

namespace Grammar

/-! ## Expressions -/

section Expressions

variable {inner : Nat → Parse Expr} {cursor last : Cursor}

/-- Whatever the parser accepts has a reading, and the next token does not extend it. -/
def Sound (parser : Nat → Parse Expr) : Prop :=
  ∀ power cursor e last, parser power cursor = .ok e last →
    ExprReading cursor.isArray cursor.tokens (.expr e) last.rest ∧ canExtend power last = false

/-- The expression after the current token is what the parser finds one token further on. -/
theorem nextExpression_run {power : Nat} {e : Expr}
    (h : nextExpression inner power cursor = .ok e last) :
    inner power cursor.advance = .ok e last := by
  simp only [nextExpression, bind_eq_ok, peek_apply] at h
  obtain ⟨_, _, ⟨⟩, h⟩ := h
  split at h
  · cases h
  · simp only [bind_eq_ok, advance_apply] at h
    obtain ⟨_, _, ⟨⟩, h⟩ := h
    exact h

/-- The expression after the current token has a reading. -/
theorem nextExpression_reads (hinner : Sound inner) {power : Nat} {e : Expr}
    (h : nextExpression inner power cursor = .ok e last) :
    ExprReading cursor.isArray cursor.rest (.expr e) last.rest :=
  (hinner _ _ _ _ (nextExpression_run h)).1

/-- What extends an expression is the parenthesis of a list or an operator, which binds as strongly
as it says. -/
theorem extensionPower?_eq_some {kind : Token.Kind} {power : Nat}
    (h : extensionPower? kind = some power) :
    kind = .sym .lparen ∧ BinaryOp.ofKind? kind = none ∨
      ∃ op, BinaryOp.ofKind? kind = some op ∧ op.power = power := by
  unfold extensionPower? at h
  split at h
  next => exact .inl ⟨rfl, rfl⟩
  next => exact .inr (Option.map_eq_some_iff.1 h)

/-- The next token extends an expression if it binds stronger than what stands before the operand.
-/
theorem canExtend_iff {power : Nat} :
    canExtend power cursor = true ↔
      ∃ stronger, extensionPower? cursor.peek.kind = some stronger ∧ power < stronger := by
  unfold canExtend
  split <;> simp [*]

/-- Where no token binds stronger than nothing, none extends the expression before it. -/
theorem endsExpr_of_not_canExtend (h : canExtend openPower cursor = false) :
    EndsExpr cursor.rest := by
  intro next hnext
  rw [Cursor.eq_peek_of_mem_head? hnext]
  cases hpower : extensionPower? cursor.peek.kind with
  | none => rfl
  | some power =>
    -- every extension binds stronger than an expression on its own
    have hpos : openPower < power := by
      rcases extensionPower?_eq_some hpower with ⟨hparen, -⟩ | ⟨op, -, rfl⟩
      · rw [hparen] at hpower
        cases hpower
        decide
      · cases op <;> decide
    rw [canExtend_iff.2 ⟨power, hpower, hpos⟩] at h
    cases h

/-- An expression on its own ends where nothing extends it. -/
theorem nextExpression_endsExpr (hinner : Sound inner) {e : Expr}
    (h : nextExpression inner openPower cursor = .ok e last) : EndsExpr last.rest :=
  endsExpr_of_not_canExtend (hinner _ _ _ _ (nextExpression_run h)).2

/-- A list of expressions has a reading. -/
theorem expressionList_reads (hmoves : ∀ power, Keeps Cursor.Moves (inner power))
    (hinner : Sound inner) {es : List Expr} (h : expressionList inner cursor = .ok es last) :
    ExprReading cursor.isArray cursor.rest (.list es) last.rest := by
  have hrun := commaList_run h
  clear h
  -- along the run; the arrays stay the same from one item to the next
  induction hrun with
  | one hvalue => exact .one (nextExpression_reads hinner hvalue)
  | cons hvalue hcomma _ ih =>
    have hfirst := nextExpression_reads hinner hvalue
    rw [Cursor.rest_eq_cons_of_kind hcomma (by decide)] at hfirst
    have hmove := (nextExpression_keeps Cursor.drift_moves hmoves _).of_ok hvalue
    have hrest := ih
    rw [show (Cursor.advance _).isArray = _ from hmove.isArray] at hrest
    exact .cons hfirst hcomma hrest

/-- A list ends where nothing extends its last member. -/
theorem expressionList_endsExpr (hinner : Sound inner) {es : List Expr}
    (h : expressionList inner cursor = .ok es last) : EndsExpr last.rest := by
  have hrun := commaList_run h
  clear h
  induction hrun with
  | one hvalue => exact nextExpression_endsExpr hinner hvalue
  | cons _ _ _ ih => exact ih

/-- A list of subscripts has a reading, up to the parenthesis that closes it. -/
theorem subscripts_reads (hmoves : ∀ power, Keeps Cursor.Moves (inner power))
    (hinner : Sound inner) {es : List Expr} (h : subscripts inner cursor = .ok es last) :
    ∃ q, q.kind = .sym .rparen ∧
      ExprReading cursor.isArray cursor.rest (.list es) (q :: last.rest) := by
  simp only [subscripts, bind_eq_ok, expect_eq_ok] at h
  obtain ⟨_, middle, hlist, _, _, ⟨hparen, rfl, rfl⟩, ⟨⟩⟩ := h
  refine ⟨middle.peek, hparen, ?_⟩
  rw [← Cursor.rest_eq_cons_of_kind hparen (by decide)]
  exact expressionList_reads hmoves hinner hlist

/-- Arguments are read from their opening parenthesis on, the current token. -/
theorem arguments_reads (hmoves : ∀ power, Keeps Cursor.Moves (inner power))
    (hinner : Sound inner) {es : List Expr} {p : Token} (hp : p.kind = .sym .lparen)
    (h : arguments inner cursor = .ok es last) :
    ExprReading cursor.isArray (p :: cursor.rest) (.arguments es) last.rest := by
  simp only [arguments, bind_eq_ok, peek_apply] at h
  obtain ⟨_, _, ⟨⟩, h⟩ := h
  split at h
  next hparen =>
    simp only [bind_eq_ok, advance_apply] at h
    obtain ⟨_, _, ⟨⟩, ⟨⟩⟩ := h
    rw [Cursor.rest_eq_cons_of_kind hparen (by decide)]
    exact .noArguments hp hparen
  next =>
    obtain ⟨q, hq, hlist⟩ := subscripts_reads hmoves hinner h
    exact .someArguments hp hlist hq

/-- How far an operand has been read: it has a reading, and if it is a plain name, then either
the name is in parentheses or the next token does not open the arguments of an array. -/
structure Extendable (declared : String → Bool) (ts : List Token) (left : Expr)
    (cursor : Cursor) : Prop where
  reading : ExprReading declared ts (.expr left) cursor.rest
  callable : ∀ name loc, left = .var name [] loc →
    (∃ t : Token, ts = t :: cursor.rest ∧ t.kind = .ident ∧ name = t.literal ∧ loc = t.loc ∧
      (cursor.peek.kind = .sym .lparen → declared t.literal = false)) ∨
    ∃ p q us, ts = p :: us ∧ p.kind = .sym .lparen ∧ q.kind = .sym .rparen ∧
      ExprReading declared us (.expr (.var name [] loc)) (q :: cursor.rest)

/-- An operand that starts with a name has a reading, and can be extended. -/
theorem named_reads (hmoves : ∀ power, Keeps Cursor.Moves (inner power)) (hinner : Sound inner)
    {e : Expr} (ht : cursor.current.kind = .ident) (h : named inner cursor = .ok e last) :
    Extendable cursor.isArray cursor.tokens e last := by
  rw [Cursor.tokens_eq_cons (by rw [ht]; decide)]
  simp only [named, bind_eq_ok, current_apply, peek_apply, get_apply] at h
  obtain ⟨_, _, ⟨⟩, _, _, ⟨⟩, _, _, ⟨⟩, h⟩ := h
  split at h
  next hdeclared =>
    split at h
    next hparen =>
      simp only [bind_eq_ok, advance_apply] at h
      obtain ⟨_, _, ⟨⟩, indices, _, hindices, ⟨⟩⟩ := h
      obtain ⟨q, hq, hlist⟩ := subscripts_reads hmoves hinner hindices
      rw [Cursor.rest_eq_cons_of_kind hparen (by decide)]
      refine ⟨.element ht hdeclared hparen hlist hq, ?_⟩
      -- a list of subscripts is never empty
      rintro name loc ⟨⟩
      exact absurd rfl hlist.list_ne_nil
    next hparen =>
      -- an array without subscripts is a plain name, but no list follows it
      cases h
      refine ⟨.name ht fun hfree => absurd (hfree.symm.trans hdeclared) Bool.false_ne_true, ?_⟩
      rintro name loc ⟨⟩
      exact .inl ⟨_, rfl, ht, rfl, rfl, fun hopen => absurd hopen hparen⟩
  next hdeclared =>
    have hdeclared : cursor.isArray cursor.current.literal = false := by simpa using hdeclared
    split at h
    next =>
      simp only [bind_eq_ok] at h
      obtain ⟨args, _, hargs, ⟨⟩⟩ := h
      refine ⟨.bareCall ht hdeclared (expressionList_reads hmoves hinner hargs), ?_⟩
      rintro name loc ⟨⟩
    next hargument =>
      cases h
      refine ⟨.name ht fun _ next hnext => ?_, ?_⟩
      · rw [Cursor.eq_peek_of_mem_head? hnext]
        exact not_or.1 hargument
      · rintro name loc ⟨⟩
        exact .inl ⟨_, rfl, ht, rfl, rfl, fun _ => hdeclared⟩

/-- An integer is found if its literal fits, and nothing is taken in for it. -/
theorem integer_eq_ok {literal : IntLit} :
    integer cursor = .ok literal last ↔
      integerValue? cursor.current.literal = some literal.value ∧
        literal = ⟨literal.value, cursor.current.literal, cursor.current.loc⟩ ∧ cursor = last := by
  rw [integer_apply]
  constructor
  · intro h
    split at h
    next value hvalue =>
      cases h
      exact ⟨hvalue, rfl, rfl⟩
    next => cases h
  · rintro ⟨hvalue, hliteral, rfl⟩
    rw [hvalue, hliteral]

/-- An operand has a reading, and can be extended. -/
theorem operand_reads (hmoves : ∀ power, Keeps Cursor.Moves (inner power)) (hinner : Sound inner)
    {e : Expr} (h : operand inner cursor = .ok e last) :
    Extendable cursor.isArray cursor.tokens e last := by
  rw [operand_apply] at h
  split at h
  next ht => exact named_reads hmoves hinner ht h
  next ht =>
    simp only [bind_eq_ok, integer_eq_ok] at h
    obtain ⟨literal, _, ⟨hvalue, hliteral, rfl⟩, ⟨⟩⟩ := h
    rw [Cursor.tokens_eq_cons (by rw [ht]; decide), hliteral]
    refine ⟨.int ht hvalue, ?_⟩
    rintro name loc ⟨⟩
  next ht =>
    cases h
    rw [Cursor.tokens_eq_cons (by rw [ht]; decide)]
    refine ⟨.str ht, ?_⟩
    rintro name loc ⟨⟩
  next ht =>
    simp only [grouped, bind_eq_ok, expect_eq_ok] at h
    obtain ⟨inside, middle, hinside, _, _, ⟨hparen, rfl, rfl⟩, ⟨⟩⟩ := h
    have hreads := nextExpression_reads hinner hinside
    rw [Cursor.rest_eq_cons_of_kind hparen (by decide)] at hreads
    rw [Cursor.tokens_eq_cons (by rw [ht]; decide)]
    refine ⟨.grouped ht hreads hparen, ?_⟩
    -- a plain name in parentheses may be that of an array and still be called
    rintro name loc rfl
    exact .inr ⟨_, _, _, rfl, ht, hparen, hreads⟩
  next => cases h
  next =>
    split at h
    next op hop =>
      have hkind : cursor.current.kind ≠ .eof := by
        intro heof
        rw [heof] at hop
        cases hop
      simp only [unary, bind_eq_ok, current_apply] at h
      obtain ⟨_, _, ⟨⟩, e, _, he, ⟨⟩⟩ := h
      rw [Cursor.tokens_eq_cons hkind]
      refine ⟨.unary hop (nextExpression_reads hinner he), ?_⟩
      rintro name loc ⟨⟩
    next => cases h

/-- An extension of what can be extended has a reading, and can be extended again. -/
theorem extend_reads (hmoves : ∀ power, Keeps Cursor.Moves (inner power)) (hinner : Sound inner)
    {declared : String → Bool} {ts : List Token} {power : Nat} {left e : Expr}
    (hdeclared : cursor.isArray = declared) (hleft : Extendable declared ts left cursor)
    (hmore : canExtend power cursor = true) (h : extend inner left cursor = .ok e last) :
    Extendable declared ts e last := by
  simp only [extend, bind_eq_ok, advance_apply] at h
  obtain ⟨_, _, ⟨⟩, h⟩ := h
  have hreading := hleft.reading
  obtain ⟨stronger, hstronger, -⟩ := canExtend_iff.1 hmore
  rcases extensionPower?_eq_some hstronger with ⟨hparen, hnone⟩ | ⟨op, hop, -⟩
  · rw [hnone] at h
    dsimp only at h
    rw [called_apply] at h
    split at h
    next name loc =>
      simp only [bind_eq_ok] at h
      obtain ⟨args, _, hargs, ⟨⟩⟩ := h
      have hargs := arguments_reads hmoves hinner hparen hargs
      rw [← Cursor.rest_eq_cons_of_kind hparen (by decide),
        show cursor.advance.isArray = declared from hdeclared] at hargs
      -- the callee is a name next to its arguments, or a name in parentheses
      rcases hleft.callable name loc rfl with
        ⟨t, rfl, ht, rfl, rfl, hfree⟩ | ⟨p, q, us, rfl, hp, hq, hname⟩
      · refine ⟨.call ht (hfree hparen) hargs, ?_⟩
        rintro name loc ⟨⟩
      · refine ⟨.groupedCall hp hname hq hargs, ?_⟩
        rintro name loc ⟨⟩
    next => cases h
  · have hkind : cursor.peek.kind ≠ .eof := by
      intro heof
      rw [heof] at hop
      cases hop
    rw [hop] at h
    simp only [bind_eq_ok] at h
    obtain ⟨right, _, hright, ⟨⟩⟩ := h
    have hright := nextExpression_reads hinner hright
    rw [Cursor.rest_eq_cons hkind] at hreading
    rw [show cursor.advance.isArray = declared from hdeclared] at hright
    refine ⟨.binary hreading hop hright, ?_⟩
    rintro name loc ⟨⟩

/-- Every round extends an operand that has been read, and what it gives can be extended again. -/
theorem loopRun_reads (hmoves : ∀ power, Keeps Cursor.Moves (inner power))
    (hinner : Sound inner) {declared : String → Bool} {ts : List Token} {power : Nat}
    {left e : Expr} (hdeclared : cursor.isArray = declared)
    (hleft : Extendable declared ts left cursor)
    (h : LoopRun (canExtend power) (extend inner) left cursor e last) :
    Extendable declared ts e last := by
  induction h with
  | done => exact hleft
  | next hmore hnext _ ih =>
    have hmove := (extend_keeps Cursor.drift_moves hmoves _).of_ok hnext
    exact ih (hmove.isArray.trans hdeclared)
      (extend_reads hmoves hinner hdeclared hleft hmore hnext)

/-- An expression that the parser accepts has a reading, and nothing behind it extends it. -/
theorem expression_reads (levels : Nat) : Sound (expression levels) := by
  induction levels with
  | zero =>
    intro power cursor e last h
    cases h
  | succ levels ih =>
    intro power cursor e last h
    have hmoves := expression_keeps Cursor.drift_moves levels
    simp only [expression, expressionRule, bind_eq_ok] at h
    obtain ⟨left, middle, hleft, h⟩ := h
    have hmove := (operand_keeps Cursor.drift_moves hmoves).of_ok hleft
    -- the operand is read as it is, and each round of the loop reads on from it
    have hrun := loopRun_reads hmoves ih hmove.isArray (operand_reads hmoves ih hleft)
      (iterate_run h)
    exact ⟨hrun.reading, not_canExtend_of_iterate hmoves h⟩

end Expressions

/-! ## Parts of statements -/

section Parts

variable {cursor last : Cursor}

/-- The label of a jump has a reading. -/
theorem jumpTarget_reads {target : JumpTarget} (h : jumpTarget cursor = .ok target last) :
    TargetReading cursor.rest target last.rest := by
  rw [jumpTarget_apply] at h
  split at h
  next hstar =>
    simp only [bind_eq_ok, expect_eq_ok] at h
    obtain ⟨_, _, ⟨hname, rfl, rfl⟩, ⟨⟩⟩ := h
    rw [Cursor.rest_eq_cons_of_kind hstar (by decide),
      Cursor.rest_eq_cons_of_kind hname (by decide)]
    exact .label hstar hname
  next =>
    simp only [bind_eq_ok, expect_eq_ok] at h
    obtain ⟨_, _, ⟨hnumber, rfl, rfl⟩, ⟨⟩⟩ := h
    rw [Cursor.rest_eq_cons_of_kind hnumber (by decide)]
    exact .number hnumber

/-- Items with commas between them have a reading if each of them has one. -/
theorem commaRun_reads {α : Type} {item : Parse α} {R : List Token → α → List Token → Prop}
    (hitem : ∀ cursor value last, item cursor = .ok value last → R cursor.rest value last.rest)
    {values : List α} (h : CommaRun item cursor values last) :
    CommaReading R cursor.rest values last.rest := by
  induction h with
  | one hvalue => exact .one (hitem _ _ _ hvalue)
  | cons hvalue hcomma _ ih =>
    have hfirst := hitem _ _ _ hvalue
    rw [Cursor.rest_eq_cons_of_kind hcomma (by decide)] at hfirst
    exact .cons hfirst hcomma ih

/-- The size of an array has a reading. -/
theorem arraySize_reads {size : IntLit} (h : arraySize cursor = .ok size last) :
    SizeReading cursor.rest size last.rest := by
  simp only [arraySize, bind_eq_ok, expect_eq_ok, integer_eq_ok] at h
  obtain ⟨_, _, ⟨hnumber, rfl, rfl⟩, hvalue, hsize, rfl⟩ := h
  rw [Cursor.rest_eq_cons_of_kind hnumber (by decide), hsize]
  exact .int hnumber hvalue

/-- The declaration of an array has a reading, and it is the latest in the table then. -/
theorem arrayDecl_eq_ok {array : ArrayDecl} (h : arrayDecl cursor = .ok array last) :
    DeclReading cursor.rest array last.rest ∧
      last.arrays = (array.name, array.loc) :: cursor.arrays := by
  simp only [arrayDecl, bind_eq_ok, expect_eq_ok, modify_apply] at h
  obtain ⟨_, _, ⟨hname, rfl, rfl⟩, _, _, ⟨hopen, rfl, rfl⟩, sizes, middle, hsizes, _, _,
    ⟨hclose, rfl, rfl⟩, _, _, ⟨⟩, ⟨⟩⟩ := h
  have hreads := commaRun_reads (fun _ _ _ => arraySize_reads) (commaList_run hsizes)
  rw [Cursor.rest_eq_cons_of_kind hclose (by decide)] at hreads
  -- the sizes declare nothing, so the entry of the array is the only new one
  have hmoves := (Keeps.commaList Cursor.drift_moves
    (arraySize_keeps Cursor.drift_moves)).of_ok hsizes
  constructor
  · rw [Cursor.rest_eq_cons_of_kind hname (by decide),
      Cursor.rest_eq_cons_of_kind hopen (by decide)]
    exact .array hname hopen hreads hclose
  · rw [Cursor.arrays_declare, Cursor.arrays_advance, hmoves.arrays]
    rfl

/-- A declaration adds its arrays to those declared before, the latest first. -/
theorem arrayDecls_eq_ok {arrays : List ArrayDecl} (h : CommaRun arrayDecl cursor arrays last) :
    last.arrays = Declarations.adding cursor.arrays arrays := by
  induction h with
  | one hvalue => exact (arrayDecl_eq_ok hvalue).2
  | cons hvalue _ _ ih =>
    rw [ih, Cursor.arrays_advance, (arrayDecl_eq_ok hvalue).2]
    simp [Declarations.adding]

variable {expr : Nat → Parse Expr}

/-- The step of a loop, given or not, has a reading. -/
theorem loopStep_reads (hexpr : Sound expr) {loc : Location} {step : Expr}
    (h : loopStep expr loc cursor = .ok step last) :
    StepReading cursor.isArray loc cursor.rest step last.rest := by
  simp only [loopStep, bind_eq_ok, peek_apply] at h
  obtain ⟨_, _, ⟨⟩, h⟩ := h
  split at h
  next hstep =>
    simp only [bind_eq_ok, advance_apply] at h
    obtain ⟨_, _, ⟨⟩, h⟩ := h
    rw [Cursor.rest_eq_cons_of_kind hstep (by decide)]
    exact .given hstep (nextExpression_reads hexpr h)
  next =>
    cases h
    exact .default

/-- The end of the head of a loop has a reading. -/
theorem loopHeadEnd_reads (h : loopHeadEnd cursor = .ok () last) :
    HeadEndReading cursor.rest last.rest := by
  simp only [loopHeadEnd, bind_eq_ok, peek_apply] at h
  obtain ⟨_, _, ⟨⟩, h⟩ := h
  split at h
  next hline =>
    cases h
    rw [Cursor.rest_eq_cons_of_kind hline (by decide)]
    exact .line hline
  next =>
    simp only [bind_eq_ok, expect_eq_ok] at h
    obtain ⟨_, _, ⟨hcolon, rfl, rfl⟩, ⟨⟩⟩ := h
    rw [Cursor.rest_eq_cons_of_kind hcolon (by decide)]
    exact .colon hcolon

/-- The end of a loop has a reading; it declares nothing, and takes no diagnostic back. -/
theorem loopEnd_reads {counter : String} (h : loopEnd counter cursor = .ok () last) :
    LoopEndReading cursor.rest last.rest ∧ last.arrays = cursor.arrays ∧
      (last.Clean → cursor.Clean) := by
  simp only [loopEnd, bind_eq_ok, expect_eq_ok, peek_apply] at h
  obtain ⟨_, middle, ⟨hnext, rfl, rfl⟩, _, _, ⟨⟩, h⟩ := h
  rw [Cursor.rest_eq_cons_of_kind hnext (by decide)]
  split at h
  next hname =>
    simp only [bind_eq_ok, advance_apply] at h
    obtain ⟨_, _, ⟨⟩, h⟩ := h
    rw [Cursor.rest_eq_cons_of_kind hname (by decide)]
    split at h
    next =>
      simp only [bind_eq_ok, modify_apply, skipSeparator_apply] at h
      obtain ⟨_, _, ⟨⟩, ⟨⟩⟩ := h
      refine ⟨?_, ?_, ?_⟩
      · rw [Cursor.rest_skipSeparator, Cursor.rest_note]
        exact .named hnext hname
      · rw [Cursor.arrays_skipSeparator, Cursor.arrays_note]
        rfl
      · -- the journal has what it had, and the mismatch on top of it
        intro hclean
        have hnote := hclean.of_journal (Cursor.journal_skipSeparator _)
        exact fun entry hentry => hnote entry (List.mem_cons_of_mem _ hentry)
    next =>
      cases h
      refine ⟨?_, Cursor.arrays_skipSeparator _, fun hclean =>
        hclean.of_journal (Cursor.journal_skipSeparator _)⟩
      rw [Cursor.rest_skipSeparator]
      exact .named hnext hname
  next hname =>
    cases h
    refine ⟨?_, Cursor.arrays_skipSeparator _, fun hclean =>
      hclean.of_journal (Cursor.journal_skipSeparator _)⟩
    rw [Cursor.rest_skipSeparator]
    refine .bare hnext fun n hn => ?_
    rwa [Cursor.eq_peek_of_mem_head? hn]

end Parts

/-! ## Statements -/

section Statements

variable {expr : Nat → Parse Expr} {step : Cursor → Option Statement × Cursor}
  {cursor last : Cursor}

/-- Whatever the step finds without recording a diagnostic has a reading. -/
def StepSound (step : Cursor → Option Statement × Cursor) : Prop :=
  ∀ cursor found last, step cursor = (found, last) → last.Clean →
    Reading cursor.arrays cursor.tokens (.statement found) last.arrays last.rest

/-- The rounds of a block have a reading, if nothing is wrong at the end. -/
theorem Rounds.reads {ends : Token.Kind → Bool} {statements : List Statement}
    (h : Rounds step ends cursor statements last)
    (hleads : ∀ cursor, Cursor.Leads cursor (step cursor).2) (hstep : StepSound step)
    (hclean : last.Clean) :
    Reading cursor.arrays cursor.rest (.block statements) last.arrays last.rest := by
  induction h with
  | nil => exact .nil
  | cons _ hrest ih =>
    -- the first statement is clean because the cursor after it leads to the last
    have hlater := hrest.keeps Cursor.growth_leads.toDrift hleads
    exact .cons (hstep _ _ _ rfl (hlater.clean hclean)) (ih hclean)

/-- A block without a diagnostic has a reading. -/
theorem block_reads (hleads : ∀ cursor, Cursor.Leads cursor (step cursor).2)
    (hstep : StepSound step) {ends : Token.Kind → Bool} {statements : List Statement}
    (h : block step ends cursor = .ok statements last) (hclean : last.Clean) :
    Reading cursor.arrays cursor.rest (.block statements) last.arrays last.rest :=
  (rounds_of_block h).reads hleads hstep hclean

/-- An arm without a diagnostic has a reading. -/
theorem branch_reads (hleads : ∀ cursor, Cursor.Leads cursor (step cursor).2)
    (hstep : StepSound step) {ends : Token.Kind → Bool} {arm : Branch}
    (h : branch step ends cursor = .ok arm last) (hclean : last.Clean) :
    Reading cursor.arrays cursor.rest (.branch cursor.current.loc arm) last.arrays last.rest := by
  simp only [branch, bind_eq_ok, current_apply, peek_apply] at h
  obtain ⟨_, _, ⟨⟩, _, _, ⟨⟩, h⟩ := h
  split at h
  next =>
    simp only [bind_eq_ok, skipSeparator_apply] at h
    obtain ⟨target, middle, htarget, _, _, ⟨⟩, statements, final, hblock, h⟩ := h
    have hmove := (jumpTarget_keeps Cursor.drift_moves).of_ok htarget
    -- a number alone is a jump; with statements behind it, it is the first of a block
    cases statements with
    | nil =>
      cases h
      have hrest := block_reads hleads hstep hblock hclean
      rw [Cursor.rest_skipSeparator, Cursor.arrays_skipSeparator, hmove.arrays] at hrest
      exact .jump (jumpTarget_reads htarget) hrest
    | cons statement statements =>
      cases h
      have hrest := block_reads hleads hstep hblock hclean
      rw [Cursor.rest_skipSeparator, Cursor.arrays_skipSeparator, hmove.arrays] at hrest
      exact .jumpBlock (jumpTarget_reads htarget) hrest
  next =>
    simp only [bind_eq_ok] at h
    obtain ⟨statements, _, hblock, ⟨⟩⟩ := h
    exact .block (block_reads hleads hstep hblock hclean)

/-- An `IF` without a diagnostic has a reading. -/
theorem cond_reads (hmoves : ∀ power, Keeps Cursor.Moves (expr power)) (hexpr : Sound expr)
    (hleads : ∀ cursor, Cursor.Leads cursor (step cursor).2) (hstep : StepSound step)
    {statement : Statement} (ht : cursor.current.kind = .word .if_)
    (h : cond expr step cursor = .ok statement last) (hclean : last.Clean) :
    Reading cursor.arrays (cursor.current :: cursor.rest) (.statement (some statement))
      last.arrays last.rest := by
  simp only [cond, bind_eq_ok, current_apply, expect_eq_ok, peek_apply] at h
  obtain ⟨_, _, ⟨⟩, condition, middle, hcondition, _, _, ⟨hthen, rfl, rfl⟩, consequence, final,
    hconsequence, _, _, ⟨⟩, h⟩ := h
  have hmove := (nextExpression_keeps Cursor.drift_moves hmoves _).of_ok hcondition
  have hreads := nextExpression_reads hexpr hcondition
  rw [Cursor.rest_eq_cons_of_kind hthen (by decide)] at hreads
  -- the first arm is clean because the cursor after it leads to the end
  have hfirst : final.Clean → Reading cursor.arrays middle.advance.rest
      (.branch middle.peek.loc consequence) final.arrays final.rest := by
    intro hfinal
    have := branch_reads hleads hstep hconsequence hfinal
    rwa [Cursor.arrays_advance, hmove.arrays] at this
  split at h
  next helse =>
    simp only [bind_eq_ok, advance_apply] at h
    obtain ⟨_, _, ⟨⟩, alternative, _, halternative, ⟨⟩⟩ := h
    have hlater := (branch_keeps Cursor.growth_leads.toDrift hleads _).of_ok halternative
    have hfirst := hfirst (hlater.clean hclean)
    rw [Cursor.rest_eq_cons_of_kind helse (by decide)] at hfirst
    exact .condElse ht hreads hthen hfirst helse (branch_reads hleads hstep halternative hclean)
  next =>
    cases h
    exact .cond ht hreads hthen (hfirst hclean)

/-- The kind of a jump is read from its own word, which is then the current token. -/
theorem jumpKind_eq_ok {kind : JumpKind} :
    jumpKind cursor = .ok kind last ↔
      cursor.peek.kind = .word kind.word ∧ last = cursor.advance := by
  rw [jumpKind_apply]
  constructor
  · intro h
    split at h
    next hword =>
      cases h
      exact ⟨hword, rfl⟩
    next hword =>
      cases h
      exact ⟨hword, rfl⟩
    next => cases h
  · rintro ⟨hword, rfl⟩
    rw [hword]
    cases kind <;> rfl

/-- An `ON` has a reading. -/
theorem on_reads (hmoves : ∀ power, Keeps Cursor.Moves (expr power)) (hexpr : Sound expr)
    {statement : Statement} (ht : cursor.current.kind = .word .on)
    (h : on expr cursor = .ok statement last) :
    Reading cursor.arrays (cursor.current :: cursor.rest) (.statement (some statement))
      last.arrays last.rest := by
  simp only [on, bind_eq_ok, current_apply, skipSeparator_apply, jumpKind_eq_ok] at h
  obtain ⟨_, _, ⟨⟩, value, middle, hvalue, kind, _, ⟨hword, rfl⟩, targets, third, htargets, _, _,
    ⟨⟩, ⟨⟩⟩ := h
  have hreads := nextExpression_reads hexpr hvalue
  rw [Cursor.rest_eq_cons_of_kind hword (by cases kind <;> decide)] at hreads
  have hlist := commaRun_reads (fun _ _ _ => jumpTarget_reads) (commaList_run htargets)
  have harrays : third.arrays = cursor.arrays := by
    rw [((Keeps.commaList Cursor.drift_moves
      (jumpTarget_keeps Cursor.drift_moves)).of_ok htargets).arrays, Cursor.arrays_advance]
    exact ((nextExpression_keeps Cursor.drift_moves hmoves _).of_ok hvalue).arrays
  rw [Cursor.rest_skipSeparator, Cursor.arrays_skipSeparator, harrays]
  exact .on ht hreads hword hlist

/-- A loop without a diagnostic has a reading. -/
theorem loop_reads (hmoves : ∀ power, Keeps Cursor.Moves (expr power)) (hexpr : Sound expr)
    (hleads : ∀ cursor, Cursor.Leads cursor (step cursor).2) (hstep : StepSound step)
    {statement : Statement} (ht : cursor.current.kind = .word .for_)
    (h : loop expr step cursor = .ok statement last) (hclean : last.Clean) :
    Reading cursor.arrays (cursor.current :: cursor.rest) (.statement (some statement))
      last.arrays last.rest := by
  simp only [loop, bind_eq_ok, current_apply, expect_eq_ok] at h
  obtain ⟨_, _, ⟨⟩, _, _, ⟨hcounter, rfl, rfl⟩, _, _, ⟨heq, rfl, rfl⟩, first, c₁, hfirst, _, _,
    ⟨hto, rfl, rfl⟩, bound, c₂, hbound, stride, c₃, hstride, _, c₄, hhead, body, c₅, hbody, _, _,
    hend, ⟨⟩⟩ := h
  -- each part has a reading of its own, with the arrays known at its start
  have hmove := nextExpression_keeps Cursor.drift_moves hmoves
  have hm₁ := (hmove _).of_ok hfirst
  have hm₂ := (hmove _).of_ok hbound
  have hm₃ := (loopStep_keeps Cursor.drift_moves hmoves _).of_ok hstride
  have hm₄ := (loopHeadEnd_keeps Cursor.drift_moves).of_ok hhead
  have hreads₁ := nextExpression_reads hexpr hfirst
  rw [Cursor.rest_eq_cons_of_kind hto (by decide)] at hreads₁
  have hreads₂ := nextExpression_reads hexpr hbound
  have hreads₃ := loopStep_reads hexpr hstride
  obtain ⟨hreads₅, harrays, hclean'⟩ := loopEnd_reads hend
  have hreads₄ := block_reads hleads hstep hbody (hclean' hclean)
  -- the declarations change in the body only
  rw [show c₁.advance.isArray = cursor.isArray from hm₁.isArray] at hreads₂
  rw [hm₂.isArray, show c₁.advance.isArray = cursor.isArray from hm₁.isArray] at hreads₃
  rw [hm₄.arrays, hm₃.arrays, hm₂.arrays, Cursor.arrays_advance, hm₁.arrays] at hreads₄
  rw [harrays, Cursor.rest_eq_cons_of_kind hcounter (by decide),
    Cursor.rest_eq_cons_of_kind heq (by decide)]
  exact .loop ht (.head hcounter heq hreads₁ hto hreads₂ hreads₃ (loopHeadEnd_reads hhead))
    hreads₄ hreads₅

/-- What stands behind the target of an assignment has a reading, and nothing extends it. -/
theorem assignTo_reads (hmoves : ∀ power, Keeps Cursor.Moves (expr power)) (hexpr : Sound expr)
    {target : Token} {indices : List Expr} {statement : Statement}
    (h : assignTo expr target indices cursor = .ok statement last) :
    ∃ e ts us value, cursor.rest = e :: ts ∧ e.kind = .sym .eq ∧
      ExprReading cursor.isArray ts (.expr value) us ∧ EndsExpr us ∧
      last.rest = afterSeparator us ∧ last.arrays = cursor.arrays ∧
      statement = .assign target.literal indices value target.loc := by
  simp only [assignTo, bind_eq_ok, expect_eq_ok, skipSeparator_apply] at h
  obtain ⟨_, _, ⟨heq, rfl, rfl⟩, value, middle, hvalue, _, _, ⟨⟩, ⟨⟩⟩ := h
  have hmove := (nextExpression_keeps Cursor.drift_moves hmoves _).of_ok hvalue
  refine ⟨cursor.peek, cursor.advance.rest, middle.rest, value,
    Cursor.rest_eq_cons_of_kind heq (by decide), heq, nextExpression_reads hexpr hvalue,
    nextExpression_endsExpr hexpr hvalue, Cursor.rest_skipSeparator _, ?_, rfl⟩
  rw [Cursor.arrays_skipSeparator, hmove.arrays, Cursor.arrays_advance]

/-- An assignment to an element has a reading. -/
theorem assignElement_reads (hmoves : ∀ power, Keeps Cursor.Moves (expr power))
    (hexpr : Sound expr) {statement : Statement} (ht : cursor.current.kind = .ident)
    (hdeclared : cursor.isArray cursor.current.literal = true)
    (h : assignElement expr cursor = .ok statement last) :
    Reading cursor.arrays (cursor.current :: cursor.rest) (.statement (some statement))
      last.arrays last.rest := by
  simp only [assignElement, bind_eq_ok, current_apply, expect_eq_ok] at h
  obtain ⟨_, _, ⟨⟩, _, _, ⟨hopen, rfl, rfl⟩, indices, middle, hindices, h⟩ := h
  obtain ⟨e, ts, us, value, hrest, he, hvalue, hend, hlast, harrays, rfl⟩ :=
    assignTo_reads hmoves hexpr h
  obtain ⟨q, hq, hlist⟩ := subscripts_reads hmoves hexpr hindices
  -- the subscripts declare nothing, so the value is read with the same arrays
  have hmove := (subscripts_keeps Cursor.drift_moves hmoves).of_ok hindices
  rw [hrest] at hlist
  rw [hmove.isArray] at hvalue
  rw [Cursor.rest_eq_cons_of_kind hopen (by decide), hlast, harrays, hmove.arrays]
  exact .assignElement ht hdeclared hopen hlist hq he hvalue hend

/-- A call as a statement has a reading, in each of its three forms. -/
theorem call_reads (hmoves : ∀ power, Keeps Cursor.Moves (expr power)) (hexpr : Sound expr)
    {statement : Statement} (ht : cursor.current.kind = .ident)
    (hdeclared : cursor.isArray cursor.current.literal = false)
    (h : call expr cursor = .ok statement last) :
    Reading cursor.arrays (cursor.current :: cursor.rest) (.statement (some statement))
      last.arrays last.rest := by
  simp only [call, bind_eq_ok, current_apply, peek_apply] at h
  obtain ⟨_, _, ⟨⟩, _, _, ⟨⟩, h⟩ := h
  -- no arguments, arguments in parentheses, or bare ones
  split at h
  next hterminator =>
    simp only [bind_eq_ok, pure_apply, skipSeparator_apply] at h
    obtain ⟨_, _, ⟨⟩, _, _, ⟨⟩, ⟨⟩⟩ := h
    rw [Cursor.rest_skipSeparator, Cursor.arrays_skipSeparator]
    refine .plainCall ht hdeclared fun next hnext => ?_
    rwa [Cursor.eq_peek_of_mem_head? hnext]
  next =>
    split at h
    next hparen =>
      simp only [bind_eq_ok, advance_apply, skipSeparator_apply] at h
      obtain ⟨_, _, ⟨⟩, args, _, hargs, _, _, ⟨⟩, ⟨⟩⟩ := h
      have hreads := arguments_reads hmoves hexpr hparen hargs
      rw [← Cursor.rest_eq_cons_of_kind hparen (by decide)] at hreads
      rw [Cursor.rest_skipSeparator, Cursor.arrays_skipSeparator,
        ((arguments_keeps Cursor.drift_moves hmoves).of_ok hargs).arrays, Cursor.arrays_advance]
      exact .call ht hdeclared hreads
    next =>
      simp only [bind_eq_ok, skipSeparator_apply] at h
      obtain ⟨args, _, hargs, _, _, ⟨⟩, ⟨⟩⟩ := h
      rw [Cursor.rest_skipSeparator, Cursor.arrays_skipSeparator,
        ((expressionList_keeps Cursor.drift_moves hmoves).of_ok hargs).arrays]
      exact .bareCall ht hdeclared (expressionList_reads hmoves hexpr hargs)
        (expressionList_endsExpr hexpr hargs)

/-- A statement that starts with a name has a reading. -/
theorem namedStatement_reads (hmoves : ∀ power, Keeps Cursor.Moves (expr power))
    (hexpr : Sound expr) {statement : Statement} (ht : cursor.current.kind = .ident)
    (h : namedStatement expr cursor = .ok statement last) :
    Reading cursor.arrays (cursor.current :: cursor.rest) (.statement (some statement))
      last.arrays last.rest := by
  simp only [namedStatement, bind_eq_ok, current_apply, peek_apply] at h
  obtain ⟨_, _, ⟨⟩, _, _, ⟨⟩, h⟩ := h
  -- with `=` next it assigns; else it is up to whether the name is that of an array
  split at h
  next =>
    obtain ⟨e, ts, us, value, hrest, he, hvalue, hend, hlast, harrays, rfl⟩ :=
      assignTo_reads hmoves hexpr h
    rw [hrest, hlast, harrays]
    exact .assign ht he hvalue hend
  next =>
    simp only [bind_eq_ok, get_apply] at h
    obtain ⟨_, _, ⟨⟩, h⟩ := h
    split at h
    next hdeclared => exact assignElement_reads hmoves hexpr ht hdeclared h
    next hdeclared => exact call_reads hmoves hexpr ht (by simpa using hdeclared) h

/-- A line number, with or without data, has a reading. -/
theorem lineNumber_reads {statement : Statement} (ht : cursor.current.kind = .lineNo)
    (h : lineNumber cursor = .ok statement last) :
    Reading cursor.arrays (cursor.current :: cursor.rest) (.statement (some statement))
      last.arrays last.rest := by
  simp only [lineNumber, bind_eq_ok, current_apply, peek_apply] at h
  obtain ⟨_, _, ⟨⟩, _, _, ⟨⟩, h⟩ := h
  split at h
  next hdata =>
    simp only [bind_eq_ok, advance_apply, skipSeparator_apply] at h
    obtain ⟨_, _, ⟨⟩, _, _, ⟨⟩, ⟨⟩⟩ := h
    rw [Cursor.rest_eq_cons_of_kind hdata (by decide), Cursor.rest_skipSeparator,
      Cursor.arrays_skipSeparator]
    exact .dataLine ht hdata
  next =>
    cases h
    exact .lineNumber ht

/-- A named label has a reading. -/
theorem label_reads {statement : Statement} (ht : cursor.current.kind = .sym .asterisk)
    (h : label cursor = .ok statement last) :
    Reading cursor.arrays (cursor.current :: cursor.rest) (.statement (some statement))
      last.arrays last.rest := by
  simp only [label, bind_eq_ok, current_apply, expect_eq_ok, skipSeparator_apply] at h
  obtain ⟨_, _, ⟨⟩, _, _, ⟨hname, rfl, rfl⟩, _, _, ⟨⟩, ⟨⟩⟩ := h
  rw [Cursor.rest_eq_cons_of_kind hname (by decide), Cursor.rest_skipSeparator,
    Cursor.arrays_skipSeparator]
  exact .label ht hname

/-- A `DIM` has a reading, and its arrays are declared then. -/
theorem dim_reads {statement : Statement} (ht : cursor.current.kind = .word .dim)
    (h : dim cursor = .ok statement last) :
    Reading cursor.arrays (cursor.current :: cursor.rest) (.statement (some statement))
      last.arrays last.rest := by
  simp only [dim, bind_eq_ok, current_apply, skipSeparator_apply] at h
  obtain ⟨_, _, ⟨⟩, arrays, _, harrays, _, _, ⟨⟩, ⟨⟩⟩ := h
  have hrun := commaList_run harrays
  rw [Cursor.rest_skipSeparator, Cursor.arrays_skipSeparator, arrayDecls_eq_ok hrun]
  exact .dim ht (commaRun_reads (fun _ _ _ h => (arrayDecl_eq_ok h).1) hrun)

/-- A jump has a reading. -/
theorem goto_reads {statement : Statement} (ht : cursor.current.kind = .word .goto)
    (h : goto cursor = .ok statement last) :
    Reading cursor.arrays (cursor.current :: cursor.rest) (.statement (some statement))
      last.arrays last.rest := by
  simp only [goto, bind_eq_ok, current_apply, skipSeparator_apply] at h
  obtain ⟨_, _, ⟨⟩, target, _, htarget, _, _, ⟨⟩, ⟨⟩⟩ := h
  rw [Cursor.rest_skipSeparator, Cursor.arrays_skipSeparator,
    ((jumpTarget_keeps Cursor.drift_moves).of_ok htarget).arrays]
  exact .goto ht (jumpTarget_reads htarget)

/-- A jump to a subroutine has a reading. -/
theorem gosub_reads {statement : Statement} (ht : cursor.current.kind = .word .gosub)
    (h : gosub cursor = .ok statement last) :
    Reading cursor.arrays (cursor.current :: cursor.rest) (.statement (some statement))
      last.arrays last.rest := by
  simp only [gosub, bind_eq_ok, current_apply, skipSeparator_apply] at h
  obtain ⟨_, _, ⟨⟩, target, _, htarget, _, _, ⟨⟩, ⟨⟩⟩ := h
  rw [Cursor.rest_skipSeparator, Cursor.arrays_skipSeparator,
    ((jumpTarget_keeps Cursor.drift_moves).of_ok htarget).arrays]
  exact .gosub ht (jumpTarget_reads htarget)

/-- The way back from a subroutine has a reading. -/
theorem ret_reads {statement : Statement} (ht : cursor.current.kind = .word .return_)
    (h : ret cursor = .ok statement last) :
    Reading cursor.arrays (cursor.current :: cursor.rest) (.statement (some statement))
      last.arrays last.rest := by
  simp only [ret, bind_eq_ok, current_apply, skipSeparator_apply] at h
  obtain ⟨_, _, ⟨⟩, _, _, ⟨⟩, ⟨⟩⟩ := h
  rw [Cursor.rest_skipSeparator, Cursor.arrays_skipSeparator]
  exact .ret ht

/-- Whatever a rule finds without a diagnostic has a reading. -/
theorem statementRule_reads (hmoves : ∀ power, Keeps Cursor.Moves (expr power))
    (hexpr : Sound expr) (hleads : ∀ cursor, Cursor.Leads cursor (step cursor).2)
    (hstep : StepSound step) {found : Option Statement}
    (h : statementRule expr step cursor = .ok found last) (hclean : last.Clean) :
    Reading cursor.arrays cursor.tokens (.statement found) last.arrays last.rest := by
  -- the rule fails at the end, so there is a first token, and it selects the rule
  have hkind : cursor.current.kind ≠ .eof := by
    intro heof
    rw [statementRule_apply, heof] at h
    cases h
  rw [Cursor.tokens_eq_cons hkind]
  rw [statementRule_apply] at h
  split at h
  next ht =>
    cases h
    rw [Cursor.rest_skipSeparator, Cursor.arrays_skipSeparator]
    exact .remark ht
  next ht =>
    cases h
    exact .empty ht
  next ht =>
    obtain ⟨_, hline, rfl⟩ := map_eq_ok.1 h
    exact lineNumber_reads ht hline
  next ht =>
    obtain ⟨_, hlabel, rfl⟩ := map_eq_ok.1 h
    exact label_reads ht hlabel
  next ht =>
    obtain ⟨_, hdim, rfl⟩ := map_eq_ok.1 h
    exact dim_reads ht hdim
  next ht =>
    obtain ⟨_, hcond, rfl⟩ := map_eq_ok.1 h
    exact cond_reads hmoves hexpr hleads hstep ht hcond hclean
  next ht =>
    obtain ⟨_, hon, rfl⟩ := map_eq_ok.1 h
    exact on_reads hmoves hexpr ht hon
  next ht =>
    obtain ⟨_, hgoto, rfl⟩ := map_eq_ok.1 h
    exact goto_reads ht hgoto
  next ht =>
    obtain ⟨_, hgosub, rfl⟩ := map_eq_ok.1 h
    exact gosub_reads ht hgosub
  next ht =>
    obtain ⟨_, hret, rfl⟩ := map_eq_ok.1 h
    exact ret_reads ht hret
  next ht =>
    obtain ⟨_, hloop, rfl⟩ := map_eq_ok.1 h
    exact loop_reads hmoves hexpr hleads hstep ht hloop hclean
  next ht =>
    obtain ⟨_, hnamed, rfl⟩ := map_eq_ok.1 h
    exact namedStatement_reads hmoves hexpr ht hnamed
  next => cases h
  next => cases h
  next => cases h

/-- A rule whose finds have readings still has that property when its failures are recovered from.
-/
theorem recover_reads {rule : Parse (Option Statement)} {found : Option Statement}
    (hrule : ∀ found last, rule cursor = .ok found last → last.Clean →
      Reading cursor.arrays cursor.tokens (.statement found) last.arrays last.rest)
    (h : recover rule cursor = (found, last)) (hclean : last.Clean) :
    Reading cursor.arrays cursor.tokens (.statement found) last.arrays last.rest := by
  unfold recover at h
  split at h
  next statement next hnext =>
    cases h
    have hnote : next.Clean := fun entry hentry => hclean entry (List.mem_cons_of_mem _ hentry)
    have hreading := hrule _ _ hnext hnote
    exact hreading
  next next hnext =>
    cases h
    exact hrule _ _ hnext hclean
  next diagnostic next hnext =>
    -- a recovery leaves a diagnostic
    cases h
    exact absurd hclean (Cursor.not_clean_recovered _ _)

/-- What the statement parser finds without recording a diagnostic has a reading. -/
theorem statement_reads (levels : Nat) : StepSound (statement levels) := by
  induction levels with
  | zero =>
    intro cursor found last h hclean
    refine recover_reads ?_ h hclean
    intro found last h
    cases h
  | succ levels ih =>
    intro cursor found last h hclean
    refine recover_reads ?_ h hclean
    intro found last h hclean
    exact statementRule_reads (expression_keeps Cursor.drift_moves levels)
      (expression_reads levels) (statement_keeps Cursor.growth_leads levels) ih h hclean

/-- The steps of a program that record no diagnostic read the tokens as its statements. -/
theorem StepsTo.reads {steps : List Step} (h : StepsTo cursor steps last) (hclean : last.Clean) :
    Reading cursor.arrays cursor.tokens (.block (steps.filterMap (·.statement))) last.arrays
      last.tokens := by
  induction h with
  | nil => exact .nil
  | @cons cursor _ _ _ hrest ih =>
    -- what a later step adds to the journal takes nothing from it
    have hlater := hrest.keeps Cursor.growth_leads
    have hmiddle : (statement maxNesting cursor).2.Clean :=
      (Cursor.growth_leads.trans (Cursor.growth_leads.advance _) hlater).clean hclean
    have hhead : Reading cursor.arrays cursor.tokens
        (.statement (statement maxNesting cursor).1) (statement maxNesting cursor).2.arrays
        (statement maxNesting cursor).2.rest := statement_reads maxNesting _ _ _ rfl hmiddle
    have hcons := Reading.cons hhead (ih hclean)
    cases hfound : (statement maxNesting cursor).1 with
    | none | some found =>
      rw [hfound] at hcons
      exact hcons

/-- The steps of a program end at the end of the listing. -/
theorem stepsWithin_tokens (hends : ∀ token ∈ cursor.tokens, token.kind ≠ .eof) {limit : Nat}
    (hlimit : cursor.tokens.length ≤ limit) : (stepsWithin limit cursor).2.tokens = [] := by
  induction limit generalizing cursor with
  | zero => exact List.eq_nil_of_length_eq_zero (Nat.le_zero.1 hlimit)
  | succ limit ih =>
    by_cases hend : cursor.current.kind = .eof
    · rw [stepsWithin_of_eof _ hend]
      by_contra hne
      obtain ⟨token, tokens, htokens⟩ := List.exists_cons_of_ne_nil hne
      rw [Cursor.current, htokens] at hend
      exact hends token (by rw [htokens]; exact List.mem_cons_self) hend
    · -- a step takes one token at least, so the limit is not what ends the steps
      have hlt := length_statement_advance_lt maxNesting hend
      have hsuffix : (statement maxNesting cursor).2.advance.tokens <:+ cursor.tokens :=
        (List.tail_suffix _).trans (statement_keeps Cursor.growth_leads maxNesting cursor).tokens
      rw [stepsWithin_of_ne_eof _ hend]
      exact ih (fun token htoken => hends token (hsuffix.subset htoken)) (by omega)

end Statements

end Grammar

/-! ## Listings -/

/-- The body of a listing that parses without a diagnostic reads as its program, and the reading
leaves nothing over. -/
theorem exists_reading_of_isClean {bytes : List UInt8} (h : (parse bytes).isClean = true) :
    ∃ body finish, tokenize bytes = body ++ [.endAt finish] ∧
      (∀ token ∈ body, token.kind ≠ .eof) ∧
      (body.Pairwise fun first second => first.loc.Before second.loc) ∧
      Reading [] body (.block (parse bytes).program) (parse bytes).final.arrays [] := by
  obtain ⟨body, finish, htokens, hbody, horder⟩ := tokenize_eq_body_append bytes
  refine ⟨body, finish, htokens, hbody, horder, ?_⟩
  -- the program and the final cursor, by the steps over the body
  have hprogram : (parse bytes).program =
      (Grammar.steps (.ofTokens (tokenize bytes) [])).1.filterMap (·.statement) := rfl
  have hfinal : (parse bytes).final = (Grammar.steps (.ofTokens (tokenize bytes) [])).2 := rfl
  rw [htokens, Cursor.ofTokens_append] at hprogram hfinal
  have hclean : (parse bytes).final.Clean := by
    rw [Cursor.clean_iff]
    simpa [Listing.isClean, Listing.diagnostics] using h
  rw [hfinal] at hclean
  have hreading := (Grammar.steps_stepsTo _).reads hclean
  have hend : (Grammar.steps (.start body finish [])).2.tokens = [] :=
    Grammar.stepsWithin_tokens hbody (Nat.le_refl _)
  rw [hprogram, hfinal, ← hend]
  exact hreading

end LineBasic
