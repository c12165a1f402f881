import LineBasic.Proofs.Spelling.Program.Block
import LineBasic.Proofs.Spelling.RoundTrip
import LineBasic.Proofs.Token.Numbers

/-!
# Where nesting stops

Statements and expressions inside each other draw on the same levels. The assignment of a number
takes two of them, and every choice around it and every pair of parentheses in it takes one more. So
nothing is wrong with such a line if and only if there are at most 62 choices and pairs of
parentheses together (`nesting_limit`).

The levels run out at a statement, at the condition of a choice or in the parentheses
(`Grammar.StopsTooDeep`). Only the statement at which this happens is given up. Recovery goes to the
end of the line, and there the arms of all choices around it end as well, so there is one diagnostic
(`Grammar.statement_endsListing`), and the line behind is parsed as if nothing had happened.
-/

namespace LineBasic

open Cursor Parse

/-- A line with choices inside each other and, in the innermost, an assignment of a number in
parentheses inside each other. -/
def nestedLine (choices groups : Nat) : List UInt8 :=
  Utf8.encode "10 " ++ ((List.replicate choices (Utf8.encode "IF A THEN ")).flatten ++
    (Utf8.encode "X = " ++
      (List.replicate groups 0x28 ++ Utf8.encode "1" ++ List.replicate groups 0x29)))

/-- What the tokens of a number in parentheses say. -/
def groupFaces : (groups : Nat) → List (Token.Kind × String)
  | 0 => [(.num, "1")]
  | groups + 1 =>
    (.sym .lparen, Symbol.lparen.spelling) ::
      (groupFaces groups ++ [(.sym .rparen, Symbol.rparen.spelling)])

/-- What the tokens of the statement on such a line say. -/
def nestedFaces (groups : Nat) : (choices : Nat) → List (Token.Kind × String)
  | 0 => (.ident, "X") :: (.sym .eq, "=") :: groupFaces groups
  | choices + 1 =>
    (.word .if_, "IF") :: (.ident, "A") :: (.word .then_, "THEN") :: nestedFaces groups choices

/-- A number in parentheses starts with a token that ends no line. -/
theorem groupFaces_eq_cons (groups : Nat) :
    ∃ kind literal faces, groupFaces groups = (kind, literal) :: faces ∧
      kind.isTerminator = false := by
  cases groups with
  | zero | succ groups => exact ⟨_, _, _, rfl, rfl⟩

/-- The nested statement starts with an `IF`, or with the name that is assigned to. -/
theorem nestedFaces_eq_cons (groups choices : Nat) :
    ∃ kind literal faces, nestedFaces groups choices = (kind, literal) :: faces ∧
      (kind = .ident ∨ kind = .word .if_) := by
  cases choices with
  | zero => exact ⟨_, _, _, rfl, .inl rfl⟩
  | succ choices => exact ⟨_, _, _, rfl, .inr rfl⟩

/-- No line ends within the parentheses, and no loop starts there. -/
theorem groupFaces_plain {groups : Nat} :
    ∀ face ∈ groupFaces groups, face.1.isTerminator = false ∧ face.1 ≠ .word .for_ := by
  induction groups with
  | zero => decide
  | succ groups ih =>
    rw [groupFaces, List.forall_mem_cons, List.forall_mem_append, List.forall_mem_singleton]
    exact ⟨by decide, ih, by decide⟩

/-- None of the tokens ends a statement or opens a loop. -/
theorem nestedFaces_plain {choices groups : Nat} :
    ∀ face ∈ nestedFaces groups choices, face.1.isTerminator = false ∧ face.1 ≠ .word .for_ := by
  induction choices with
  | zero =>
    rw [nestedFaces, List.forall_mem_cons, List.forall_mem_cons]
    exact ⟨by decide, by decide, groupFaces_plain⟩
  | succ choices ih =>
    rw [nestedFaces, List.forall_mem_cons, List.forall_mem_cons, List.forall_mem_cons]
    exact ⟨by decide, by decide, by decide, ih⟩

/-! ## Scanning -/

/-- The number and its parentheses are scanned token by token, however many there are. -/
theorem scans_groupFaces {groups : Nat} {rest : List UInt8} (hrest : Delimits rest) :
    Scans (List.replicate groups 0x28 ++ Utf8.encode "1" ++ List.replicate groups 0x29 ++ rest)
      (groupFaces groups) rest := by
  induction groups generalizing rest with
  | zero =>
    have hdigits : isDigits "1" = true := by decide
    exact Scans.token (Lexeme.first?_ofDigits hdigits hrest) Token.Kind.noConfusion
  | succ groups ih =>
    -- the last parenthesis closes the first one
    have hopen (bytes : List UInt8) :
        Scans (0x28 :: bytes) [(.sym .lparen, Symbol.lparen.spelling)] bytes :=
      Scans.symbol .lparen (by decide) bytes
    have hclose : Scans (0x29 :: rest) [(.sym .rparen, Symbol.rparen.spelling)] rest :=
      Scans.symbol .rparen (by decide) rest
    have hscan := (hopen _).trans ((ih (.cons (by decide))).trans hclose)
    rw [List.replicate_succ, List.replicate_succ']
    simpa [groupFaces] using hscan

/-- By induction on the choices, each of which is scanned as three tokens. -/
theorem scans_nestedFaces (choices groups : Nat) :
    Scans ((List.replicate choices (Utf8.encode "IF A THEN ")).flatten ++
        (Utf8.encode "X = " ++
          (List.replicate groups 0x28 ++ Utf8.encode "1" ++ List.replicate groups 0x29)))
      (nestedFaces groups choices) [] := by
  induction choices with
  | zero =>
    have hname : isName "X" = true := by decide
    have hspace (bytes : List UInt8) : Delimits (0x20 :: bytes) := .cons (by decide)
    have hgroup : Scans _ (groupFaces groups) [] := scans_groupFaces .nil
    rw [List.append_nil] at hgroup
    exact (Scans.token (Lexeme.first?_ofName false hname (hspace _))
      Token.Kind.noConfusion).trans ((Scans.space _).trans
        ((Scans.symbol .eq (by decide) _).trans ((Scans.space _).trans hgroup)))
  | succ choices ih =>
    have hmarks (rest : List UInt8) : Mark.ScannedBefore rest
        [.keyword .if_, .space, .token (.ofName "A"), .space, .keyword .then_, .space] :=
      .word .if_ (by decide) (by decide) (.name (by decide) (.cons (by decide))
        (.space (.word .then_ (by decide) (by decide) .nil)))
    rw [List.replicate_succ, List.flatten_cons, List.append_assoc]
    exact (hmarks _).trans ih

/-- The tokens of the line. -/
theorem tokenizesTo_nestedLine (choices groups : Nat) :
    TokenizesTo (nestedLine choices groups) ((.lineNo, "10") :: nestedFaces groups choices) := by
  have hdigits : isDigits "10" = true := by decide
  exact ((Scans.space _).trans (scans_nestedFaces choices groups)).tokenizesTo_line hdigits
    (.cons (by decide))

/-! ## Too much inside each other -/

namespace Grammar

variable {α β : Type} {cursor middle last : Cursor} {others : List Token} {levels : Nat}

/-- The parser fails at one of the tokens, because too much stands inside each other there. -/
def StopsTooDeep (x : Parse α) (cursor : Cursor) : Prop :=
  ∃ token ∈ cursor.tokens, ∃ last, x cursor = .error ⟨.tooDeep maxNesting, token.loc⟩ last ∧
    Moves cursor last

namespace StopsTooDeep

variable {x : Parse α}

/-- What counts is the run from this cursor. -/
theorem congr {y : Parse α} (h : StopsTooDeep x cursor) (heq : y cursor = x cursor) :
    StopsTooDeep y cursor := by
  obtain ⟨token, htoken, last, hx, hmoves⟩ := h
  exact ⟨token, htoken, last, heq.trans hx, hmoves⟩

theorem bind (h : StopsTooDeep x cursor) (f : α → Parse β) : StopsTooDeep (x >>= f) cursor := by
  obtain ⟨token, htoken, last, hx, hmoves⟩ := h
  exact ⟨token, htoken, last, by rw [bind_apply, hx], hmoves⟩

theorem map (h : StopsTooDeep x cursor) (f : α → β) : StopsTooDeep (f <$> x) cursor := by
  rw [map_eq_pure_bind]
  exact h.bind _

/-- A parser that fails after another one that has moved on. -/
theorem after {f : α → Parse β} {value : α} (h : StopsTooDeep (f value) middle)
    (hx : x cursor = .ok value middle) (hmoves : Moves cursor middle) :
    StopsTooDeep (x >>= f) cursor := by
  obtain ⟨token, htoken, last, hf, hmoves'⟩ := h
  refine ⟨token, hmoves.tokens.subset htoken, last, ?_, drift_moves.trans hmoves hmoves'⟩
  rw [bind_apply, hx]
  exact hf

/-- At the limit, the failure is about the current token. -/
theorem tooDeep (h : cursor.current.kind ≠ .eof) :
    StopsTooDeep (Grammar.tooDeep : Parse α) cursor := by
  refine ⟨cursor.current, ?_, cursor, rfl, drift_moves.refl cursor⟩
  rw [tokens_eq_cons h]
  exact List.mem_cons_self

/-- An expression that is too deep is so behind the token in front of it. -/
theorem nextExpression {inner : Nat → Parse Expr} {power : Nat}
    (h : StopsTooDeep (inner power) cursor.advance)
    (hpeek : cursor.peek.kind.isTerminator = false) :
    StopsTooDeep (Grammar.nextExpression inner power) cursor := by
  refine .after ?_ (peek_apply cursor) (drift_moves.refl cursor)
  rw [hpeek]
  exact h.after (f := fun _ => inner power) (advance_apply cursor) (drift_moves.advance cursor)

end StopsTooDeep

/-! ## Groups -/

/-- There are enough levels for the groups. -/
theorem yields_groupFaces {declared : String → Bool} {groups : Nat} (h : groups ≤ levels) :
    Yields declared levels openPower (groupFaces groups) (.int ⟨1, "1", .start⟩) := by
  induction groups generalizing levels with
  | zero =>
    have hone : IntLit.isSpellable ⟨1, "1", .start⟩ = true := by decide
    have hwritten : Written declared 0 (.int ⟨1, "1", .start⟩) := .int hone
    exact hwritten.yields (Nat.zero_le _)
  | succ groups ih =>
    obtain ⟨fewer, rfl⟩ : ∃ fewer, levels = fewer + 1 := ⟨levels - 1, by omega⟩
    exact (ih (Nat.le_of_succ_le_succ h)).starts_group.yields (Nat.le_refl _)

/-- There are not enough levels for the groups. -/
theorem stopsTooDeep_groupFaces {groups : Nat} (h : levels ≤ groups)
    (hshows : Shows (groupFaces groups) cursor.tokens others) :
    StopsTooDeep (expression levels openPower) cursor := by
  induction levels generalizing groups cursor others with
  | zero =>
    obtain ⟨kind, literal, faces, hfaces, hkind⟩ := groupFaces_eq_cons groups
    rw [hfaces] at hshows
    -- no level is left, whatever comes first, as long as something does
    refine .tooDeep fun heof => ?_
    rw [← hshows.current.1, heof] at hkind
    cases hkind
  | succ levels ih =>
    obtain ⟨fewer, rfl⟩ : ∃ fewer, groups = fewer + 1 := ⟨groups - 1, by omega⟩
    obtain ⟨hkind, -, hrest⟩ := hshows.current
    obtain ⟨middle, hinside, -⟩ := hrest.exists_of_append
    obtain ⟨kind, literal, faces, hfaces, hterminator⟩ := groupFaces_eq_cons fewer
    -- behind the parenthesis an expression starts, so the next level is entered
    have hpeek : cursor.peek.kind.isTerminator = false := by
      rw [hfaces] at hinside
      rw [hinside.peek.1, hterminator]
    have hnext := (ih (Nat.le_of_succ_le_succ h) hinside).nextExpression hpeek
    have hgrouped : StopsTooDeep (grouped (expression levels)) cursor := hnext.bind _
    refine StopsTooDeep.bind (hgrouped.congr ?_) _
    rw [operand_apply, hkind]

/-! ## Recovery at the end of the listing -/

/-- The statement has come to the end of the listing. Nothing is wrong if it `fits`, and else there
is one more diagnostic: too much stands inside each other at one of the tokens. -/
def EndsListing (fits : Prop) (cursor last : Cursor) : Prop :=
  last.rest = [] ∧
    (fits ∧ last.diagnostics = cursor.diagnostics ∨
      ¬fits ∧ ∃ token ∈ cursor.tokens,
        last.diagnostics = cursor.diagnostics ++ [⟨.tooDeep maxNesting, token.loc⟩])

/-- Tokens that are passed over on the way do not matter. -/
theorem EndsListing.of_moves {fits : Prop} (h : EndsListing fits middle last)
    (hmoves : Moves cursor middle) : EndsListing fits cursor last := by
  refine ⟨h.1, h.2.imp (fun h => ⟨h.1, h.2.trans hmoves.diagnostics⟩) fun h => ⟨h.1, ?_⟩⟩
  obtain ⟨token, htoken, hdiagnostics⟩ := h.2
  exact ⟨token, hmoves.tokens.subset htoken, by rw [hdiagnostics, hmoves.diagnostics]⟩

/-- The event for a statement is no diagnostic. -/
theorem EndsListing.parsed {fits : Prop} (h : EndsListing fits cursor last) (loc : Location) :
    EndsListing fits cursor (last.note (.parsed loc)) := by
  have hdiagnostics : (last.note (.parsed loc)).diagnostics = last.diagnostics := by
    rw [diagnostics_note]
    exact List.append_nil _
  rw [EndsListing, hdiagnostics]
  exact h

/-- Where no line ends, recovery stops at the last token. -/
theorem tail_beforeTerminator {tokens : List Token}
    (h : ∀ token ∈ tokens, token.kind.isTerminator = false) :
    (beforeTerminator tokens).tail = [] := by
  fun_induction beforeTerminator tokens with
  | case1 token next rest hnext =>
    -- no token ends a line, so the search never stops here
    rw [h next (by simp)] at hnext
    cases hnext
  | case2 token next rest _ ih => exact ih (List.forall_mem_cons.1 h).2
  | case3 tokens hshort =>
    cases tokens with
    | nil => rfl
    | cons token rest =>
      cases rest with
      | nil => rfl
      | cons next rest => exact absurd rfl (hshort token next rest)

/-- Without a terminator, recovery goes to the end of the listing. -/
theorem rest_synchronize (h : ∀ token ∈ cursor.tokens, token.kind.isTerminator = false) :
    cursor.synchronize.rest = [] := by
  have hcolon : cursor.current.kind ≠ .sym .colon := by
    intro hcolon
    have htokens : cursor.tokens = cursor.current :: cursor.rest :=
      tokens_eq_cons (by rw [hcolon]; decide)
    have hcurrent := h cursor.current (by rw [htokens]; exact List.mem_cons_self)
    rw [hcolon] at hcurrent
    cases hcurrent
  rw [Cursor.synchronize, if_neg hcolon, rest_skipSeparator, Cursor.rest, tail_beforeTerminator h]
  rfl

/-- Recovery reports the failure and gives up the rest of the line, which is all there is. -/
theorem recover_stopsTooDeep {rule : Parse (Option Statement)} {fits : Prop} (hfits : ¬fits)
    (hplain : ∀ token ∈ cursor.tokens, token.kind.isTerminator = false)
    (h : StopsTooDeep rule cursor) : EndsListing fits cursor (recover rule cursor).2 := by
  obtain ⟨token, htoken, last, hrule, hmoves⟩ := h
  rw [recover, hrule]
  have hrest : (last.note (.recovered ⟨.tooDeep maxNesting, token.loc⟩)).synchronize.rest = [] :=
    rest_synchronize fun token htoken => hplain token (hmoves.tokens.subset htoken)
  refine ⟨hrest, .inr ⟨hfits, token, htoken, ?_⟩⟩
  have hsynchronize := (drift_moves.synchronize
    (last.note (.recovered ⟨.tooDeep maxNesting, token.loc⟩))).diagnostics
  rw [hsynchronize, diagnostics_note, hmoves.diagnostics]
  rfl

/-! ## Choices inside each other -/

/-- A block of one statement that comes to the end of the listing. -/
theorem block_of_rest_nil {inner : Cursor → Option Statement × Cursor} {ends : Token.Kind → Bool}
    (heof : ends .eof = true) (hends : ends cursor.peek.kind = false)
    (h : (inner cursor.advance).2.rest = []) :
    block inner ends cursor = .ok (inner cursor.advance).1.toList (inner cursor.advance).2 := by
  have hcursor : cursor.peek.kind ≠ .eof := by
    rintro hkind
    rw [hkind, heof] at hends
    cases hends
  rw [block_eq_ok, length_tokens_of_peek hcursor, blockWithin_of_not_ends hends,
    blockWithin_of_ends (by rw [peek_kind_of_rest_nil h, heof]), List.append_nil]

/-- An arm of one statement that comes to the end of the listing. -/
theorem branch_of_rest_nil {inner : Cursor → Option Statement × Cursor}
    (hpeek : cursor.peek.kind = .ident ∨ cursor.peek.kind = .word .if_)
    (h : (inner cursor.advance).2.rest = []) :
    branch inner endsThen cursor =
      .ok (.block (inner cursor.advance).1.toList) (inner cursor.advance).2 := by
  have hends : endsThen cursor.peek.kind = false := by
    rcases hpeek with hpeek | hpeek <;> rw [hpeek] <;> rfl
  have htarget : ¬(cursor.peek.kind = .num ∨ cursor.peek.kind = .sym .asterisk) := by
    rcases hpeek with hpeek | hpeek <;> rw [hpeek] <;> decide
  simp only [branch, bind_eq_ok, current_apply, peek_apply]
  refine ⟨_, _, rfl, _, _, rfl, ?_⟩
  rw [if_neg htarget, bind_eq_ok]
  exact ⟨_, _, block_of_rest_nil rfl hends h, rfl⟩

section Rules

variable {choices groups : Nat}

/-- There are not enough levels for the value of the assignment. -/
theorem stopsTooDeep_assign (h : levels ≤ groups)
    (hshows : Shows (nestedFaces groups 0) cursor.tokens others) :
    StopsTooDeep (statementRule (expression levels) (statement levels)) cursor := by
  obtain ⟨hkind, -, hrest⟩ := hshows.current
  obtain ⟨hequals, -, hvalue⟩ := hrest.peek
  obtain ⟨kind, literal, faces, hfaces, hterminator⟩ := groupFaces_eq_cons groups
  -- the value starts with a token that ends no line, so it is entered
  have hpeek : cursor.advance.peek.kind.isTerminator = false := by
    rw [hfaces] at hvalue
    rw [hvalue.peek.1, hterminator]
  have hassign : StopsTooDeep (assignTo (expression levels) cursor.current []) cursor := by
    refine .after ?_ (expect_eq_ok.2 ⟨hequals, rfl, rfl⟩) (drift_moves.advance cursor)
    exact ((stopsTooDeep_groupFaces h hvalue).nextExpression hpeek).bind _
  have hnamed : StopsTooDeep (namedStatement (expression levels)) cursor :=
    hassign.congr (by rw [namedStatement_apply, if_pos hequals])
  exact (hnamed.map _).congr (by rw [statementRule_apply, hkind])

/-- There is no level for the condition of a choice. -/
theorem stopsTooDeep_cond (hshows : Shows (nestedFaces groups (choices + 1)) cursor.tokens others) :
    StopsTooDeep (statementRule (expression 0) (statement 0)) cursor := by
  obtain ⟨hkind, -, hrest⟩ := hshows.current
  obtain ⟨hname, -, -⟩ := hrest.peek
  have hcondition : StopsTooDeep (expression 0 openPower) cursor.advance :=
    .tooDeep (by rw [current_advance, hname]; decide)
  have hcond : StopsTooDeep (cond (expression 0) (statement 0)) cursor := by
    refine .after ?_ (current_apply cursor) (drift_moves.refl cursor)
    exact (hcondition.nextExpression (by rw [hname]; rfl)).bind _
  exact (hcond.map _).congr (by rw [statementRule_apply, hkind])

/-- A choice with enough levels for its condition leaves what happens to its arm. -/
theorem exists_statement_cond (levels : Nat)
    (hshows : Shows (nestedFaces groups (choices + 1)) cursor.tokens []) :
    ∃ middle, Moves cursor middle ∧ Shows (nestedFaces groups choices) middle.tokens [] ∧
      ((statement (levels + 1) middle).2.rest = [] →
        ∃ found, statement (levels + 2) cursor =
          (some found, (statement (levels + 1) middle).2.note (.parsed found.loc))) := by
  obtain ⟨hkind, -, hrest⟩ := hshows.current
  have hspellable : (Expr.var "A" [] .start).isSpellable cursor.isArray = true := by
    have hname : isName "A" = true := by decide
    simp [Expr.isSpellable, Expr.listIsSpellable, hname]
  have hshown : Shows (Mark.faces ((Expr.var "A" [] .start).marks 0) ++
      (.word .then_, "THEN") :: nestedFaces groups choices) cursor.rest [] := hrest
  obtain ⟨others, hcondition, hthen⟩ := hshown.exists_of_append
  obtain ⟨condition, before, hrun, -, hmoves, rfl⟩ := exists_nextExpression hspellable
    (Nat.succ_le_succ (Nat.zero_le levels)) rfl hcondition (by rw [hthen.firstKind_eq]; rfl)
  obtain ⟨hword, -, hnested⟩ := hthen.peek
  have hmoves' : Moves cursor before.advance.advance := drift_moves.trans hmoves
    (drift_moves.trans (drift_moves.advance _) (drift_moves.advance _))
  refine ⟨before.advance.advance, hmoves', hnested, fun hend => ?_⟩
  -- the arm holds the statement behind `THEN` and nothing else
  obtain ⟨kind, literal, faces, hfaces, hfirst⟩ := nestedFaces_eq_cons groups choices
  rw [hfaces] at hnested
  have hpeek : before.advance.peek.kind = .ident ∨ before.advance.peek.kind = .word .if_ := by
    rw [hnested.peek.1]
    exact hfirst
  have hbranch := branch_of_rest_nil hpeek hend
  -- and nothing follows it, so there is no second arm
  have hrule : cond (expression (levels + 1)) (statement (levels + 1)) cursor =
      .ok (.cond condition (.block (statement (levels + 1) before.advance.advance).1.toList) none
        cursor.current.loc) (statement (levels + 1) before.advance.advance).2 := by
    simp only [cond, bind_eq_ok, current_apply, peek_apply, expect_eq_ok]
    refine ⟨_, _, rfl, _, _, hrun, _, _, ⟨hword, rfl, rfl⟩, _, _, hbranch, _, _, rfl, ?_⟩
    rw [peek_of_rest_nil hend]
    rfl
  refine ⟨.cond condition (.block (statement (levels + 1) before.advance.advance).1.toList) none
    cursor.current.loc, ?_⟩
  rw [statement, recover, statementRule_apply, hkind]
  dsimp only
  rw [map_eq_ok.2 ⟨_, hrule, rfl⟩]

end Rules

/-- What the statement with all the choices comes to. -/
theorem statement_endsListing {choices groups : Nat}
    (hplain : ∀ token ∈ cursor.tokens, token.kind.isTerminator = false)
    (hshows : Shows (nestedFaces groups choices) cursor.tokens []) :
    EndsListing (choices + groups + 2 ≤ levels) cursor (statement levels cursor).2 := by
  -- each choice takes one level, the assignment one, and its value one more than it has groups
  induction choices generalizing levels cursor with
  | zero =>
    cases levels with
    | zero =>
      exact recover_stopsTooDeep (Nat.not_succ_le_zero _) hplain
        (.tooDeep (by rw [hshows.current.1]; decide))
    | succ levels =>
      by_cases hfits : groups + 1 ≤ levels
      · obtain ⟨fewer, rfl⟩ : ∃ fewer, levels = fewer + 1 := ⟨levels - 1, by omega⟩
        obtain ⟨found, last, hfinds, hrun⟩ := exists_statement_assign
          (yields_groupFaces (Nat.le_of_succ_le_succ hfits)) rfl hshows
        have hend : EndsListing (0 + groups + 2 ≤ fewer + 2) cursor last :=
          ⟨hfinds.rest, .inl ⟨by omega, hfinds.moves.diagnostics⟩⟩
        rw [hrun]
        exact hend.parsed _
      · have hlevels : levels ≤ groups := by omega
        exact recover_stopsTooDeep (by omega) hplain (stopsTooDeep_assign hlevels hshows)
  | succ choices ih =>
    match levels with
    | 0 =>
      exact recover_stopsTooDeep (Nat.not_succ_le_zero _) hplain
        (.tooDeep (by rw [hshows.current.1]; decide))
    | 1 => exact recover_stopsTooDeep (by omega) hplain (stopsTooDeep_cond hshows)
    | levels + 2 =>
      obtain ⟨middle, hmoves, hnested, hcond⟩ := exists_statement_cond levels hshows
      have hplain' : ∀ token ∈ middle.tokens, token.kind.isTerminator = false :=
        fun token htoken => hplain token (hmoves.tokens.subset htoken)
      have hinner : EndsListing (choices + groups + 2 ≤ levels + 1) middle
          (statement (levels + 1) middle).2 := ih hplain' hnested
      obtain ⟨found, hfound⟩ := hcond hinner.1
      rw [hfound]
      have hfits : choices + 1 + groups + 2 ≤ levels + 2 ↔ choices + groups + 2 ≤ levels + 1 := by
        omega
      rw [hfits]
      exact (hinner.of_moves hmoves).parsed found.loc

end Grammar

/-! ## The line and the one behind it -/

/-- The nested statement stands on one line. -/
theorem lineFeed_not_mem_nestedLine (choices groups : Nat) : 0x0A ∉ nestedLine choices groups := by
  have hparts : 0x0A ∉ Utf8.encode "10 " ∧ 0x0A ∉ Utf8.encode "IF A THEN " ∧
      0x0A ∉ Utf8.encode "X = " ∧ 0x0A ∉ Utf8.encode "1" := by decide
  simp [nestedLine, List.mem_replicate, hparts]

/-- Each token shows one of the faces. -/
theorem Shows.face_mem {faces : List (Token.Kind × String)} {tokens : List Token}
    (h : Shows faces tokens []) : ∀ token ∈ tokens, token.face ∈ faces := by
  obtain ⟨shown, rfl, rfl⟩ := h
  intro token htoken
  rw [List.append_nil] at htoken
  exact List.mem_map_of_mem htoken

/-- Without a line feed, all tokens stand on the first line. -/
theorem line_of_mem_tokenize {bytes : List UInt8} (h : 0x0A ∉ bytes) :
    ∀ token ∈ tokenize bytes, token.loc.line = 1 := by
  have hbehind {front : List UInt8} (hfront : 0x0A ∉ front) : (Location.behind front).line = 1 := by
    rw [Location.behind, List.count_eq_zero_of_not_mem hfront]
  intro token htoken
  rcases Token.eq_endAt_or_numberedAt htoken with rfl | ⟨before, b, rest, hbytes, hnumbered⟩
  · exact hbehind h
  · rw [hnumbered.loc]
    refine hbehind fun hmem => h ?_
    rw [hbytes]
    exact List.mem_append_left _ hmem

/-- The parse of the line alone. Two of the levels are those of the assignment and of its value. -/
theorem diagnostics_nestedLine (choices groups : Nat) :
    choices + groups ≤ 62 ∧ (parse (nestedLine choices groups)).diagnostics = [] ∨
      ¬choices + groups ≤ 62 ∧ ∃ loc, loc.line = 1 ∧
        (parse (nestedLine choices groups)).diagnostics = [⟨.tooDeep 64, loc⟩] := by
  obtain ⟨body, finish, htokens, hfaces⟩ := tokenizesTo_nestedLine choices groups
  let cursor : Cursor := .start body finish []
  have hshows : Shows ((.lineNo, "10") :: nestedFaces groups choices) cursor.tokens [] :=
    ⟨body, (List.append_nil _).symm, hfaces⟩
  obtain ⟨hkind, -, hrest⟩ := hshows.current
  obtain ⟨kind, literal, faces, hcons, hfirst⟩ := nestedFaces_eq_cons groups choices
  have hpeek : cursor.peek.kind = .ident ∨ cursor.peek.kind = .word .if_ := by
    rw [hcons] at hrest
    rw [hrest.peek.1]
    exact hfirst
  -- the line number
  obtain ⟨middle, hmiddle, -, hnone, -, hsteps⟩ := Grammar.exists_steps_lineNumber hkind
    (by rcases hpeek with hpeek | hpeek <;> rw [hpeek] <;> decide)
  rw [← hmiddle] at hrest
  have hcurrent : middle.current.kind ≠ .eof := by
    rw [hcons] at hrest
    rw [hrest.current.1]
    rcases hfirst with rfl | rfl <;> decide
  -- the statement, which is the last one
  have hplain : ∀ token ∈ middle.tokens, token.kind.isTerminator = false :=
    fun token htoken => (nestedFaces_plain _ (hrest.face_mem token htoken)).1
  obtain ⟨hend, hdiagnostics⟩ : Grammar.EndsListing (choices + groups + 2 ≤ maxNesting) middle
      (Grammar.statement maxNesting middle).2 := Grammar.statement_endsListing hplain hrest
  have hlast := (Grammar.steps_of_last hcurrent (Prod.eta _).symm hend).2
  have hfinal : (parse (nestedLine choices groups)).diagnostics =
      (Grammar.statement maxNesting middle).2.diagnostics := by
    rw [Listing.diagnostics, (parse_of_tokenize htokens).2, hsteps, hlast]
    rfl
  rw [hfinal]
  have hfits : choices + groups + 2 ≤ maxNesting ↔ choices + groups ≤ 62 :=
    Nat.add_le_add_iff_right (n := 2)
  have hclean : middle.diagnostics = [] := hnone
  rw [hfits, hclean] at hdiagnostics
  refine hdiagnostics.imp_right fun h => ⟨h.1, ?_⟩
  obtain ⟨token, htoken, hdiagnostics⟩ := h.2
  refine ⟨token.loc, ?_, hdiagnostics⟩
  have hmem : token ∈ tokenize (nestedLine choices groups) := by
    rw [hmiddle] at htoken
    rw [htokens]
    exact List.mem_append_left _ (List.mem_of_mem_tail htoken)
  exact line_of_mem_tokenize (lineFeed_not_mem_nestedLine choices groups) token hmem

/-- No loop starts in the nested statement. -/
theorem kind_ne_for_of_mem_nestedLine (choices groups : Nat) :
    ∀ token ∈ tokenize (nestedLine choices groups), token.kind ≠ .word .for_ := by
  obtain ⟨body, finish, htokens, hfaces⟩ := tokenizesTo_nestedLine choices groups
  have hplain : ∀ face ∈ (.lineNo, "10") :: nestedFaces groups choices, face.1 ≠ .word .for_ :=
    List.forall_mem_cons.2 ⟨by decide, fun face hface => (nestedFaces_plain face hface).2⟩
  rw [htokens, List.forall_mem_append, List.forall_mem_singleton]
  refine ⟨fun token htoken => ?_, Token.Kind.noConfusion⟩
  exact hplain token.face (hfaces ▸ List.mem_map_of_mem htoken)

/-- Nothing is wrong with the line and the one behind it if and only if there are at most 62 choices
and pairs of parentheses together. Otherwise there is one diagnostic, and it is about the first
line. In any case the second line is parsed as what it is. -/
theorem nesting_limit (choices groups : Nat) :
    ((parse (nestedLine choices groups ++ 0x0A :: Utf8.encode "20 Y = 2")).isClean = true ↔
        choices + groups ≤ 62) ∧
      ((parse (nestedLine choices groups ++ 0x0A :: Utf8.encode "20 Y = 2")).isClean = true ∨
        ∃ loc, loc.line = 1 ∧
          (parse (nestedLine choices groups ++ 0x0A :: Utf8.encode "20 Y = 2")).diagnostics =
            [⟨.tooDeep 64, loc⟩]) ∧
      ∃ before numberLoc valueLoc loc,
        (parse (nestedLine choices groups ++ 0x0A :: Utf8.encode "20 Y = 2")).program =
          before ++ [.lineNumber "20" none numberLoc,
            .assign "Y" [] (.int ⟨2, "2", valueLoc⟩) loc] := by
  -- the second line
  let value : Expr := .int ⟨2, "2", .start⟩
  have hnumber : isDigits "20" = true := by decide
  have hname : isName "Y" = true := by decide
  have hvalue (declared : String → Bool) : value.isSpellable declared = true := by
    have hliteral : IntLit.isSpellable ⟨2, "2", .start⟩ = true := by decide
    exact hliteral
  -- the first line opens no loop, so the second one is no part of a body
  have hloops := kind_ne_for_of_mem_nestedLine choices groups
  obtain ⟨behind, first, hshows, -, hdiagnostics, hfinal, hprogram⟩ := exists_behind_line
    (tokenizesTo_assignmentLine 0 hnumber hname (hvalue fun _ => false)) (.inl hloops)
  obtain ⟨found, numberLoc, loc, hsame, hfound, hlast⟩ :=
    Grammar.exists_steps_assignmentLine (hvalue _) (by decide) hshows
  have hbytes : Utf8.encode "20 Y = 2" = assignmentLine 0 "20" "Y" value := by decide
  rw [hbytes]
  have hjoined : (parse (nestedLine choices groups ++
      0x0A :: assignmentLine 0 "20" "Y" value)).diagnostics =
        (parse (nestedLine choices groups)).diagnostics.map (·.retarget first) := by
    rw [Listing.diagnostics, hfinal, hlast, hdiagnostics]
  rw [← and_assoc]
  refine ⟨?_, ?_⟩
  · -- what is wrong with the first line is not about its end, so it stays as it is
    rw [Listing.isClean, hjoined]
    rcases diagnostics_nestedLine choices groups with ⟨hfits, hnone⟩ | ⟨hfits, loc, hline, hone⟩
    · rw [hnone]
      exact ⟨iff_of_true rfl hfits, .inl rfl⟩
    · rw [hone]
      exact ⟨iff_of_false Bool.false_ne_true hfits, .inr ⟨loc, hline, rfl⟩⟩
  · obtain ⟨valueLoc, rfl⟩ : ∃ valueLoc, found = .int ⟨2, "2", valueLoc⟩ := by
      cases found with
      | int literal =>
        obtain ⟨number, digits, loc⟩ := literal
        cases hsame
        exact ⟨loc, rfl⟩
      | _ => cases hsame
    exact ⟨_, numberLoc, valueLoc, loc, by rw [hprogram, hfound]⟩

end LineBasic
