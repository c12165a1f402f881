import Mathlib.Tactic.Common
import LineBasic.Grammar.Program

/-!
# Runs of parsers

How the primitive parsers act on a cursor, as equations, and what a successful run of a
composed parser consists of. Later modules take a rule of the grammar apart with these and
never look inside the parser monad.

The tokens after the current one are `Cursor.rest`. A parser ends with its last token as the
current one, so what it took in is told by the rest before and the rest after.

The loops are bounded by the number of tokens. What one of them does is told by a relation that
leaves the bound out: `Parse.CommaRun` for items with commas between them, `Parse.LoopRun` for the
extensions of an expression, `Grammar.Rounds` for a block and `Grammar.StepsTo` for a program. An
invariant of a loop is then proved by induction on the run.
-/

namespace LineBasic

namespace Cursor

/-- The tokens after the current one. -/
def rest (cursor : Cursor) : List Token := cursor.tokens.tail

@[simp]
theorem current_advance (cursor : Cursor) : cursor.advance.current = cursor.peek := rfl

@[simp]
theorem tokens_advance (cursor : Cursor) : cursor.advance.tokens = cursor.rest := rfl

@[simp]
theorem finish_advance (cursor : Cursor) : cursor.advance.finish = cursor.finish := rfl

@[simp]
theorem arrays_advance (cursor : Cursor) : cursor.advance.arrays = cursor.arrays := rfl

@[simp]
theorem journal_advance (cursor : Cursor) : cursor.advance.journal = cursor.journal := rfl

@[simp]
theorem isArray_advance (cursor : Cursor) (name : String) :
    cursor.advance.isArray name = cursor.isArray name := rfl

@[simp]
theorem tokens_note (cursor : Cursor) (event : Event) :
    (cursor.note event).tokens = cursor.tokens := rfl

@[simp]
theorem rest_note (cursor : Cursor) (event : Event) : (cursor.note event).rest = cursor.rest := rfl

@[simp]
theorem arrays_note (cursor : Cursor) (event : Event) :
    (cursor.note event).arrays = cursor.arrays := rfl

@[simp]
theorem rest_declare (cursor : Cursor) (name : String) (loc : Location) (dimensions : Nat) :
    (cursor.declare name loc dimensions).rest = cursor.rest := rfl

@[simp]
theorem arrays_declare (cursor : Cursor) (name : String) (loc : Location) (dimensions : Nat) :
    (cursor.declare name loc dimensions).arrays = (name, loc) :: cursor.arrays := rfl

/-- The tokens after the current one are the last ones of all that are left. -/
theorem rest_suffix (cursor : Cursor) : cursor.rest <:+ cursor.tokens :=
  List.tail_suffix _

/-- A cursor further on has fewer tokens behind the current one, too. -/
theorem rest_suffix_rest {earlier later : Cursor} (h : later.tokens <:+ earlier.tokens) :
    later.rest <:+ earlier.rest := by
  obtain ⟨passed, htokens⟩ := h
  rw [rest, rest, ← htokens]
  cases passed with
  | nil => exact List.suffix_rfl
  | cons token passed => exact (List.tail_suffix _).trans (List.suffix_append _ _)

/-- Only the end token is of the kind of the end, so any other current token is the first of
the tokens. -/
theorem tokens_eq_cons {cursor : Cursor} (h : cursor.current.kind ≠ .eof) :
    cursor.tokens = cursor.current :: cursor.rest := by
  obtain ⟨tokens, finish, arrays, journal⟩ := cursor
  cases tokens with
  | nil => exact absurd rfl h
  | cons token tokens => rfl

/-- A token other than the end that comes next is the first of the rest. -/
theorem rest_eq_cons {cursor : Cursor} (h : cursor.peek.kind ≠ .eof) :
    cursor.rest = cursor.peek :: cursor.advance.rest := by
  rw [← current_advance] at h
  exact tokens_eq_cons h

/-- The next token is the first of the rest, once it is known to be of a kind that is not the end.
-/
theorem rest_eq_cons_of_kind {cursor : Cursor} {kind : Token.Kind} (h : cursor.peek.kind = kind)
    (hkind : kind ≠ .eof) : cursor.rest = cursor.peek :: cursor.advance.rest :=
  rest_eq_cons (h ▸ hkind)

/-- With no token left, the end comes next. -/
theorem peek_of_rest_nil {cursor : Cursor} (h : cursor.rest = []) :
    cursor.peek = cursor.endToken := by
  rw [peek, ← rest, h]
  rfl

/-- With no token left, what comes next is of the kind of the end. -/
theorem peek_kind_of_rest_nil {cursor : Cursor} (h : cursor.rest = []) :
    cursor.peek.kind = .eof := by
  rw [peek_of_rest_nil h]
  rfl

/-- The first token of the rest is the one that comes next. -/
theorem peek_of_rest_cons {cursor : Cursor} {token : Token} {tokens : List Token}
    (h : cursor.rest = token :: tokens) : cursor.peek = token := by
  rw [peek, ← rest, h]
  rfl

/-- If there is a token after the current one, it is the one that comes next. -/
theorem eq_peek_of_mem_head? {cursor : Cursor} {token : Token} (h : token ∈ cursor.rest.head?) :
    token = cursor.peek := by
  obtain ⟨tokens, htokens⟩ := List.head?_eq_some_iff.1 h
  exact (peek_of_rest_cons htokens).symm

/-- Where another token comes next, the tokens have not run out. -/
theorem tokens_ne_nil_of_peek {cursor : Cursor} (h : cursor.peek.kind ≠ .eof) :
    cursor.tokens ≠ [] := by
  intro hnil
  exact h (by rw [peek, hnil]; rfl)

/-- Where another token comes next, there is a current one. -/
theorem length_tokens_of_peek {cursor : Cursor} (h : cursor.peek.kind ≠ .eof) :
    cursor.tokens.length = cursor.rest.length + 1 := by
  have hpos := List.length_pos_iff.2 (tokens_ne_nil_of_peek h)
  rw [rest, List.length_tail]
  omega

/-- Where another token comes next, moving on leaves fewer tokens. -/
theorem length_rest_lt_of_peek {cursor : Cursor} (h : cursor.peek.kind ≠ .eof) :
    cursor.rest.length < cursor.tokens.length := by
  rw [length_tokens_of_peek h]
  exact Nat.lt_succ_self _

/-- Where there is a current token, moving on leaves fewer tokens. -/
theorem length_rest_lt {cursor : Cursor} (h : cursor.current.kind ≠ .eof) :
    cursor.rest.length < cursor.tokens.length := by
  rw [tokens_eq_cons h]
  exact Nat.lt_succ_self _

end Cursor

namespace Parse

variable {α β : Type} {cursor last : Cursor}

/-- A sequence runs its second part from where the first one ends, unless that fails. -/
theorem bind_apply (x : Parse α) (f : α → Parse β) (cursor : Cursor) :
    (x >>= f) cursor =
      match x cursor with
      | .ok value next => f value next
      | .error diagnostic next => .error diagnostic next := by
  change EStateM.bind x f cursor = _
  rw [EStateM.bind]
  cases x cursor <;> rfl

/-- A sequence succeeds if both parts do, one after the other. -/
theorem bind_eq_ok {x : Parse α} {f : α → Parse β} {value : β} :
    (x >>= f) cursor = .ok value last ↔
      ∃ first middle, x cursor = .ok first middle ∧ f first middle = .ok value last := by
  rw [bind_apply]
  constructor
  · intro h
    cases hx : x cursor with
    | ok first middle =>
      rw [hx] at h
      exact ⟨first, middle, rfl, h⟩
    | error diagnostic middle =>
      rw [hx] at h
      cases h
  · rintro ⟨first, middle, hx, h⟩
    rw [hx]
    exact h

/-- A parser whose value is changed succeeds where the parser does. -/
theorem map_eq_ok {f : α → β} {x : Parse α} {value : β} :
    (f <$> x) cursor = .ok value last ↔
      ∃ inside, x cursor = .ok inside last ∧ f inside = value := by
  rw [map_eq_pure_bind, bind_eq_ok]
  constructor
  · rintro ⟨inside, middle, hx, h⟩
    cases h
    exact ⟨inside, hx, rfl⟩
  · rintro ⟨inside, hx, rfl⟩
    exact ⟨inside, last, hx, rfl⟩

@[simp]
theorem pure_apply (value : α) (cursor : Cursor) :
    (pure value : Parse α) cursor = .ok value cursor := rfl

@[simp]
theorem get_apply (cursor : Cursor) : (get : Parse Cursor) cursor = .ok cursor cursor := rfl

@[simp]
theorem modify_apply (f : Cursor → Cursor) (cursor : Cursor) :
    (modify f : Parse PUnit) cursor = .ok ⟨⟩ (f cursor) := rfl

@[simp]
theorem fail_apply (cause : Cause) (loc : Location) (cursor : Cursor) :
    (fail cause loc : Parse α) cursor = .error ⟨cause, loc⟩ cursor := rfl

@[simp]
theorem current_apply (cursor : Cursor) : current cursor = .ok cursor.current cursor := rfl

@[simp]
theorem peek_apply (cursor : Cursor) : peek cursor = .ok cursor.peek cursor := rfl

@[simp]
theorem advance_apply (cursor : Cursor) : advance cursor = .ok cursor.peek cursor.advance := rfl

@[simp]
theorem skipSeparator_apply (cursor : Cursor) :
    skipSeparator cursor = .ok () cursor.skipSeparator := rfl

/-- A token that is asked for is moved to if it comes next, and is missed otherwise. -/
theorem expect_apply (kind : Token.Kind) (cursor : Cursor) :
    expect kind cursor =
      if cursor.peek.kind = kind then .ok cursor.peek cursor.advance
      else .error ⟨.unexpected kind cursor.peek.kind, cursor.peek.loc⟩ cursor := by
  change (if _ then _ else _ : Parse Token) cursor = _
  split <;> rfl

/-- A token that is asked for is found if it comes next, and is the current one then. -/
@[simp]
theorem expect_eq_ok {kind : Token.Kind} {token : Token} :
    expect kind cursor = .ok token last ↔
      cursor.peek.kind = kind ∧ cursor.peek = token ∧ cursor.advance = last := by
  rw [expect_apply]
  split <;> simp [*]

/-- One round of a loop over items: an item and the others, or none. -/
theorem manyWithin_succ_apply (more : Cursor → Bool) (item : Parse α) (limit : Nat)
    (cursor : Cursor) :
    manyWithin more item (limit + 1) cursor =
      if more cursor then
        (item >>= fun head => manyWithin more item limit >>= fun tail => pure (head :: tail)) cursor
      else .ok [] cursor := by
  rw [manyWithin, bind_apply, get_apply]
  dsimp only
  split <;> rfl

/-- One round of a loop from a value: a step and the others, or the value as it is. -/
theorem iterateWithin_succ_apply (more : Cursor → Bool) (step : α → Parse α) (limit : Nat)
    (value : α) (cursor : Cursor) :
    iterateWithin more step (limit + 1) value cursor =
      if more cursor then (step value >>= iterateWithin more step limit) cursor
      else .ok value cursor := by
  rw [iterateWithin, bind_apply, get_apply]
  dsimp only
  split <;> rfl

/-- A successful run of a loop, from a value to the one that it comes to. -/
inductive LoopRun (more : Cursor → Bool) (step : α → Parse α) : α → Cursor → α → Cursor → Prop
  /-- No step is made. -/
  | done {value : α} {cursor : Cursor} : LoopRun more step value cursor value cursor
  /-- A step is made, and then the others. -/
  | next {value middle result : α} {cursor next last : Cursor} (hmore : more cursor = true)
      (hstep : step value cursor = .ok middle next)
      (hrun : LoopRun more step middle next result last) :
      LoopRun more step value cursor result last

/-- A bounded loop that succeeds has a run. -/
private theorem iterateWithin_run {more : Cursor → Bool} {step : α → Parse α} {limit : Nat}
    {value result : α} (h : iterateWithin more step limit value cursor = .ok result last) :
    LoopRun more step value cursor result last := by
  induction limit generalizing value cursor with
  | zero =>
    cases h
    exact .done
  | succ limit ih =>
    rw [iterateWithin_succ_apply] at h
    split at h
    next hmore =>
      obtain ⟨middle, next, hstep, h⟩ := bind_eq_ok.1 h
      exact .next hmore hstep (ih h)
    next =>
      cases h
      exact .done

/-- A loop from a value that succeeds has a run. -/
theorem iterate_run {more : Cursor → Bool} {step : α → Parse α} {value result : α}
    (h : iterate more step value cursor = .ok result last) :
    LoopRun more step value cursor result last :=
  iterateWithin_run h

/-- A successful run over items with commas between them. -/
inductive CommaRun (item : Parse α) : Cursor → List α → Cursor → Prop
  /-- One item. -/
  | one {cursor last : Cursor} {value : α} (hvalue : item cursor = .ok value last) :
      CommaRun item cursor [value] last
  /-- An item, a comma and further items. -/
  | cons {cursor middle last : Cursor} {value : α} {values : List α}
      (hvalue : item cursor = .ok value middle) (hcomma : middle.peek.kind = .sym .comma)
      (hvalues : CommaRun item middle.advance values last) :
      CommaRun item cursor (value :: values) last

/-- A bounded loop over items behind commas finds none, or a comma comes next and the items behind
it make up a run. -/
private theorem manyWithin_comma_run {item : Parse α} {limit : Nat} {values : List α}
    (h : manyWithin (·.peekIs (.sym .comma)) (do let _ ← advance; item) limit cursor =
      .ok values last) :
    (values = [] ∧ last = cursor) ∨
      (cursor.peek.kind = .sym .comma ∧ CommaRun item cursor.advance values last) := by
  -- the loop stops before the first item, or it takes a comma and an item and goes on
  induction limit generalizing cursor values with
  | zero =>
    cases h
    exact .inl ⟨rfl, rfl⟩
  | succ limit ih =>
    simp only [manyWithin, bind_eq_ok, get_apply] at h
    obtain ⟨_, _, ⟨⟩, h⟩ := h
    split at h
    next hmore =>
      refine .inr ⟨by simpa [Cursor.peekIs] using hmore, ?_⟩
      simp only [bind_eq_ok, advance_apply] at h
      obtain ⟨value, middle, ⟨_, _, ⟨⟩, hvalue⟩, tail, _, htail, ⟨⟩⟩ := h
      rcases ih htail with ⟨rfl, rfl⟩ | ⟨hcomma, hrun⟩
      · exact .one hvalue
      · exact .cons hvalue hcomma hrun
    next =>
      cases h
      exact .inl ⟨rfl, rfl⟩

/-- A list with commas that is found is a run. -/
theorem commaList_run {item : Parse α} {values : List α}
    (h : commaList item cursor = .ok values last) : CommaRun item cursor values last := by
  simp only [commaList, bind_eq_ok, many, get_apply] at h
  obtain ⟨value, middle, hvalue, tail, _, ⟨_, _, ⟨⟩, htail⟩, ⟨⟩⟩ := h
  rcases manyWithin_comma_run htail with ⟨rfl, rfl⟩ | ⟨hcomma, hrun⟩
  · exact .one hvalue
  · exact .cons hvalue hcomma hrun

end Parse

/-! ## Rules that look at a token to choose -/

namespace Grammar

open Parse

variable {inner : Nat → Parse Expr}

/-- An integer is read off the literal of the current token, if that fits. -/
theorem integer_apply (cursor : Cursor) :
    integer cursor =
      match integerValue? cursor.current.literal with
      | some value => .ok ⟨value, cursor.current.literal, cursor.current.loc⟩ cursor
      | none => .error ⟨.badInteger cursor.current.literal, cursor.current.loc⟩ cursor := by
  rw [integer, bind_apply, current_apply]
  dsimp only
  cases integerValue? cursor.current.literal <;> rfl

/-- The kind of the current token selects how an operand is read. -/
theorem operand_apply (cursor : Cursor) :
    operand inner cursor =
      match cursor.current.kind with
      | .ident => named inner cursor
      | .num => (integer >>= fun literal => pure (.int literal)) cursor
      | .str => .ok (.str cursor.current.literal cursor.current.loc) cursor
      | .sym .lparen => grouped inner cursor
      | .illegal => .error ⟨.illegalToken cursor.current.literal, cursor.current.loc⟩ cursor
      | kind =>
        match UnaryOp.ofKind? kind with
        | some op => unary inner op cursor
        | none => .error ⟨.noOperand kind, cursor.current.loc⟩ cursor := by
  rw [operand, bind_apply, current_apply]
  dsimp only
  cases cursor.current.kind with
  | sym symbol => cases symbol <;> rfl
  | word keyword => cases keyword <;> rfl
  | _ => rfl

/-- Only a plain name takes arguments. -/
theorem called_apply (function : Expr) (cursor : Cursor) :
    called inner function cursor =
      match function with
      | .var name [] loc =>
        (arguments inner >>= fun args => pure (.call name args loc)) cursor
      | function => .error ⟨.notCallable, function.loc⟩ cursor := by
  unfold called
  cases function with
  | var name indices loc => cases indices <;> rfl
  | _ => rfl

/-- An asterisk tells a named label from a line number. -/
theorem jumpTarget_apply (cursor : Cursor) :
    jumpTarget cursor =
      if cursor.peek.kind = .sym .asterisk then
        (expect .ident >>= fun name =>
          pure ⟨name.literal, cursor.peek.loc⟩ : Parse JumpTarget) cursor.advance
      else
        (expect .num >>= fun number => pure ⟨number.literal, number.loc⟩ : Parse JumpTarget)
          cursor := by
  rw [jumpTarget, bind_apply, peek_apply]
  dsimp only
  cases cursor.peek.kind with
  | sym symbol => cases symbol <;> rfl
  | _ => rfl

/-- The next token tells which jump an `ON` makes, and nothing else may stand there. -/
theorem jumpKind_apply (cursor : Cursor) :
    jumpKind cursor =
      match cursor.peek.kind with
      | .word .goto => .ok .goto cursor.advance
      | .word .gosub => .ok .gosub cursor.advance
      | found => .error ⟨.noJump found, cursor.peek.loc⟩ cursor := by
  rw [jumpKind, bind_apply, peek_apply]
  dsimp only
  cases cursor.peek.kind with
  | word keyword => cases keyword <;> rfl
  | _ => rfl

/-- What decides how a statement goes on that starts with a name: the token behind the name first,
and then whether it is that of an array. -/
theorem namedStatement_apply (cursor : Cursor) :
    namedStatement inner cursor =
      if cursor.peek.kind = .sym .eq then assignTo inner cursor.current [] cursor
      else if cursor.isArray cursor.current.literal then assignElement inner cursor
      else call inner cursor := by
  rw [namedStatement, bind_apply, current_apply]
  dsimp only
  rw [bind_apply, peek_apply]
  dsimp only
  split
  · rfl
  · rw [bind_apply, get_apply]
    dsimp only
    split <;> rfl

/-- The kind of the first token of a statement selects its rule. -/
theorem statementRule_apply (step : Cursor → Option Statement × Cursor) (cursor : Cursor) :
    statementRule inner step cursor =
      match cursor.current.kind with
      | .word .rem => .ok none cursor.skipSeparator
      | .sym .colon => .ok none cursor
      | .lineNo => (some <$> lineNumber) cursor
      | .sym .asterisk => (some <$> label) cursor
      | .word .dim => (some <$> dim) cursor
      | .word .if_ => (some <$> cond inner step) cursor
      | .word .on => (some <$> on inner) cursor
      | .word .goto => (some <$> goto) cursor
      | .word .gosub => (some <$> gosub) cursor
      | .word .return_ => (some <$> ret) cursor
      | .word .for_ => (some <$> loop inner step) cursor
      | .ident => (some <$> namedStatement inner) cursor
      | .word .next => .error ⟨.badStatement cursor.current.literal, cursor.current.loc⟩ cursor
      | .illegal => .error ⟨.illegalToken cursor.current.literal, cursor.current.loc⟩ cursor
      | _ => .error ⟨.badToken cursor.current.literal, cursor.current.loc⟩ cursor := by
  rw [statementRule, bind_apply, current_apply]
  dsimp only
  cases cursor.current.kind with
  | sym symbol => cases symbol <;> rfl
  | word keyword => cases keyword <;> rfl
  | _ => rfl

/-! ## Blocks and programs -/

section Loops

variable {step : Cursor → Option Statement × Cursor} {ends : Token.Kind → Bool}
  {cursor last : Cursor}

/-- A block stops before a token that ends it. -/
theorem blockWithin_of_ends (h : ends cursor.peek.kind = true) (limit : Nat) :
    blockWithin step ends limit cursor = ([], cursor) := by
  cases limit with
  | zero => rfl
  | succ limit => rw [blockWithin, if_pos h]

/-- A block that goes on is its first statement and a block behind that. -/
theorem blockWithin_of_not_ends (h : ends cursor.peek.kind = false) (limit : Nat) :
    blockWithin step ends (limit + 1) cursor =
      ((step cursor.advance).1.toList ++ (blockWithin step ends limit (step cursor.advance).2).1,
        (blockWithin step ends limit (step cursor.advance).2).2) := by
  rw [blockWithin, if_neg (Bool.not_eq_true _ ▸ h)]

/-- The rounds of a block lead from the first cursor to the last. Each is made on a token that does
not end the block. -/
inductive Rounds (step : Cursor → Option Statement × Cursor) (ends : Token.Kind → Bool) :
    Cursor → List Statement → Cursor → Prop
  /-- No round is made. -/
  | nil (cursor : Cursor) : Rounds step ends cursor [] cursor
  /-- A round is made, and then the others. -/
  | cons {cursor last : Cursor} {statements : List Statement}
      (hmore : ends cursor.peek.kind = false)
      (hrest : Rounds step ends (step cursor.advance).2 statements last) :
      Rounds step ends cursor ((step cursor.advance).1.toList ++ statements) last

/-- A block is made in rounds, whatever its bound. -/
theorem blockWithin_rounds (limit : Nat) (cursor : Cursor) :
    Rounds step ends cursor (blockWithin step ends limit cursor).1
      (blockWithin step ends limit cursor).2 := by
  induction limit generalizing cursor with
  | zero => exact .nil cursor
  | succ limit ih =>
    cases hends : ends cursor.peek.kind with
    | true =>
      rw [blockWithin_of_ends hends]
      exact .nil cursor
    | false =>
      rw [blockWithin_of_not_ends hends]
      exact .cons hends (ih _)

/-- A block cannot fail: it is what its loop comes to. -/
theorem block_eq_ok {statements : List Statement} :
    block step ends cursor = .ok statements last ↔
      blockWithin step ends cursor.tokens.length cursor = (statements, last) := by
  rw [block, ofStep, EStateM.Result.ok.injEq, Prod.ext_iff]

/-- A block is a run of rounds. -/
theorem rounds_of_block {statements : List Statement}
    (h : block step ends cursor = .ok statements last) :
    Rounds step ends cursor statements last := by
  have hrounds : Rounds step ends cursor _ _ := blockWithin_rounds cursor.tokens.length cursor
  rwa [block_eq_ok.1 h] at hrounds

/-- The block behind a jump is empty. -/
theorem block_of_ends (h : ends cursor.peek.kind = true) :
    block step ends cursor = .ok [] cursor :=
  block_eq_ok.2 (blockWithin_of_ends h _)

/-- No step is made at the end of the listing. -/
theorem stepsWithin_of_eof (limit : Nat) (h : cursor.current.kind = .eof) :
    stepsWithin limit cursor = ([], cursor) := by
  cases limit with
  | zero => rfl
  | succ limit => rw [stepsWithin, if_pos h]

/-- The steps from a token are the one there and those behind it. -/
theorem stepsWithin_of_ne_eof (limit : Nat) (h : cursor.current.kind ≠ .eof) :
    stepsWithin (limit + 1) cursor =
      (⟨(statement maxNesting cursor).1, (statement maxNesting cursor).2.hasDiagnostics⟩ ::
          (stepsWithin limit (statement maxNesting cursor).2.advance).1,
        (stepsWithin limit (statement maxNesting cursor).2.advance).2) := by
  rw [stepsWithin, if_neg h]

/-- The steps lead from the first cursor to the last. Each is made on a token that is not the
end. -/
inductive StepsTo : Cursor → List Step → Cursor → Prop
  /-- No step is made. -/
  | nil (cursor : Cursor) : StepsTo cursor [] cursor
  /-- A step is made, and then the others. -/
  | cons {cursor last : Cursor} {steps : List Step} (hmore : cursor.current.kind ≠ .eof)
      (hrest : StepsTo (statement maxNesting cursor).2.advance steps last) :
      StepsTo cursor
        (⟨(statement maxNesting cursor).1, (statement maxNesting cursor).2.hasDiagnostics⟩ ::
          steps) last

/-- A program is parsed in steps, whatever the bound. -/
theorem stepsWithin_stepsTo (limit : Nat) (cursor : Cursor) :
    StepsTo cursor (stepsWithin limit cursor).1 (stepsWithin limit cursor).2 := by
  induction limit generalizing cursor with
  | zero => exact .nil cursor
  | succ limit ih =>
    by_cases hend : cursor.current.kind = .eof
    · rw [stepsWithin_of_eof _ hend]
      exact .nil cursor
    · rw [stepsWithin_of_ne_eof _ hend]
      exact .cons hend (ih _)

theorem steps_stepsTo (cursor : Cursor) : StepsTo cursor (steps cursor).1 (steps cursor).2 :=
  stepsWithin_stepsTo _ cursor

end Loops

end Grammar

end LineBasic
