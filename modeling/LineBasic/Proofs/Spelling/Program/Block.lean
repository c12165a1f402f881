import LineBasic.Proofs.Spelling.Program.Parse

/-!
# Parsing written blocks

What the parser makes of a written list of statements (`Grammar.exists_blockWithin`), of the arms
of an `IF` and of the body of a loop, and so of every written statement (`Grammar.parsesBack`).

The pieces of a list start with what divides each statement from the one before it, and the parser
stands behind the colon among them. A statement has to end where the next piece starts
(`Statement.endsBefore`): an `IF` goes on to the end of its line, and a line number on its own takes
in no colon.
-/

namespace LineBasic

open Cursor Parse

/-! ## Where statements start and end -/

namespace Statement

/-- The kind of the token that a statement starts with. -/
def openingKind : Statement → Token.Kind
  | lineNumber _ _ _ => .lineNo
  | label _ _ => .sym .asterisk
  | dim _ _ => .word .dim
  | cond _ _ _ _ => .word .if_
  | on _ _ _ _ => .word .on
  | goto _ _ => .word .goto
  | gosub _ _ => .word .gosub
  | ret _ => .word .return_
  | loop _ _ _ _ _ _ => .word .for_
  | assign _ _ _ _ => .ident
  | call _ _ _ => .ident

/-- The kinds of tokens before which most statements end: a colon, a new line, the end, and what
ends an arm or a body. -/
def followers : List Token.Kind := [.sym .colon, .lineNo, .eof, .word .else_, .word .next]

/-- Whether a statement ends before a token of the kind given. -/
def endsBefore (kind : Token.Kind) : Statement → Bool
  | lineNumber _ none _ => kind != .word .data && kind != .sym .colon
  | cond _ _ _ _ => Grammar.endsElse kind
  | _ => kind ∈ followers

variable {gap : Nat} {statement : Statement} {tokens others : List Token}

/-- The first token of a statement is of its opening kind. -/
theorem firstKind_of_shows (h : Shows (Mark.faces (statement.marks gap Mark.colon)) tokens others) :
    firstKind tokens = statement.openingKind := by
  cases statement with
  | lineNumber name data loc => cases data <;> exact Shows.firstKind_eq h
  | assign name indices value loc =>
    rw [marks, Mark.faces_append, Expr.marks] at h
    exact Shows.firstKind_eq h
  | call function arguments loc =>
    rw [marks, Expr.marks] at h
    exact Shows.firstKind_eq h
  | _ => exact Shows.firstKind_eq h

theorem openingKind_ne_colon : statement.openingKind ≠ .sym .colon := by
  cases statement <;> exact fun h => nomatch h

theorem openingKind_ne_eof : statement.openingKind ≠ .eof := by
  cases statement <;> exact fun h => nomatch h

/-- A statement that opens a line starts with its number. -/
theorem openingKind_of_isLine (h : statement.isLine = true) : statement.openingKind = .lineNo := by
  cases statement with
  | lineNumber => rfl
  | _ => cases h

end Statement

/-- A target opens with a number or with an asterisk. -/
theorem JumpTarget.firstKind_of_shows {target : JumpTarget} {tokens others : List Token}
    (h : Shows (Mark.faces target.marks) tokens others) :
    firstKind tokens = .num ∨ firstKind tokens = .sym .asterisk := by
  unfold JumpTarget.marks at h
  split at h
  · exact .inl (Shows.firstKind_eq h)
  · exact .inr (Shows.firstKind_eq h)

/-- Whether a colon stands behind. -/
def Lead.takesColon : Lead → Bool
  | data => true
  | statement => true
  | _ => false

/-- What stands behind a colon that divides it from what stands before it, if one does. -/
theorem Lead.afterSeparator_eq {lead : Lead} {tokens first : List Token}
    (h : Shows (Mark.faces (lead.marks Mark.colon)) tokens first)
    (hfirst : firstKind first ≠ .sym .colon) :
    afterSeparator tokens = first ∧
      firstKind tokens = if lead.takesColon then .sym .colon else firstKind first := by
  have hplain (hnil : tokens = first) :
      afterSeparator tokens = first ∧ firstKind tokens = firstKind first :=
    ⟨(afterSeparator_of_ne (hnil ▸ hfirst)).trans hnil, by rw [hnil]⟩
  have hcolon {literal : String} (hlead : Shows [(.sym .colon, literal)] tokens first) :
      afterSeparator tokens = first ∧ firstKind tokens = .sym .colon :=
    ⟨hlead.afterSeparator.eq_of_nil, hlead.firstKind_eq⟩
  cases lead with
  | start | word => exact hplain h.eq_of_nil
  | data | statement => exact hcolon h

section Lists

variable {gap : Nat} {lead : Lead} {head : Statement} {tail : List Statement}
  {tokens others : List Token}

/-- Where the first statement of a list starts. -/
theorem exists_of_shows_listMarks
    (h : Shows (Mark.faces (Statement.listMarks gap Mark.colon lead (head :: tail))) tokens
      others) :
    ∃ middle, Shows (Mark.faces (head.marks gap Mark.colon)) (afterSeparator tokens) middle ∧
      Shows (Mark.faces (Statement.listMarks gap Mark.colon head.lead tail)) middle others ∧
      firstKind tokens =
        if head.isLine = false ∧ lead.takesColon = true then .sym .colon else head.openingKind := by
  rw [Statement.listMarks, Mark.faces_append, Mark.faces_append] at h
  obtain ⟨first, hlead, h⟩ := h.exists_of_append
  obtain ⟨middle, hhead, htail⟩ := h.exists_of_append
  have hfirst := Statement.firstKind_of_shows hhead
  have hne : firstKind first ≠ .sym .colon := by
    rw [hfirst]
    exact Statement.openingKind_ne_colon
  have hdivided : afterSeparator tokens = first ∧ firstKind tokens =
      if head.isLine = false ∧ lead.takesColon = true then .sym .colon else head.openingKind := by
    cases hline : head.isLine with
    | true =>
      -- a line number starts its line, and nothing divides it from what stands before it
      rw [hline, if_pos rfl] at hlead
      rw [hlead.eq_of_nil]
      exact ⟨afterSeparator_of_ne hne, hfirst⟩
    | false =>
      rw [hline, if_neg Bool.false_ne_true] at hlead
      rw [← hfirst]
      simpa using Lead.afterSeparator_eq hlead hne
  rw [hdivided.1]
  exact ⟨middle, hhead, htail, hdivided.2⟩

/-- A statement ends before the one behind it. -/
theorem Statement.endsBefore_of_shows {lines open_ : Bool}
    (hlaid : Statement.listIsLaidOut lines open_ (head :: tail) = true)
    (h : Shows (Mark.faces (Statement.listMarks gap Mark.colon head.lead tail)) tokens others)
    (hlast : tail = [] → head.endsBefore (firstKind others) = true) :
    head.endsBefore (firstKind tokens) = true := by
  cases tail with
  | nil =>
    rw [Shows.eq_of_nil h]
    exact hlast rfl
  | cons next tail =>
    obtain ⟨-, -, -, hfirst⟩ := exists_of_shows_listMarks h
    rw [hfirst]
    cases hline : next.isLine with
    | true =>
      -- a line number ends every statement
      rw [if_neg fun hand => Bool.noConfusion hand.1, Statement.openingKind_of_isLine hline]
      cases head with
      | lineNumber name data loc => cases data <;> rfl
      | _ => rfl
    | false =>
      obtain ⟨-, -, hcond, -⟩ := Statement.listIsLaidOut_cons.1 hlaid
      -- a colon ends all but a choice, which only a line may follow, and a line number, which takes
      -- no colon and needs a word that opens a statement
      cases head with
      | cond condition consequence alternative loc =>
        have hnext : next.isLine = true := hcond rfl
        rw [hline] at hnext
        cases hnext
      | lineNumber name data loc =>
        cases data with
        | none =>
          change (next.openingKind != _ && _) = true
          cases next <;> rfl
        | some data => rfl
      | _ => rfl

end Lists

/-! ## Lists -/

namespace Grammar

variable {gap levels : Nat}

/-- The parser finds the statement wherever it is written. -/
def ParsesBack (gap : Nat) (statement : Statement) : Prop :=
  ∀ levels cursor others, statement.isSpellable cursor.isArray = true →
    statement.isLaidOut = true → statement.Within (fun levels => Expr.FitsIn levels) levels →
    Shows (Mark.faces (statement.marks gap Mark.colon)) cursor.tokens others →
    statement.endsBefore (firstKind others) = true →
    FindsStatement levels cursor statement others

/-- The parser finds the statements of a written list, up to a token that ends the block. -/
theorem exists_blockWithin {lines open_ : Bool} {ends : Token.Kind → Bool}
    (hopens : ∀ statement : Statement, (statement.isLine = true → lines = true) →
      ends statement.openingKind = false)
    {statements : List Statement} (h : ∀ statement ∈ statements, ParsesBack gap statement)
    (hwithin : ∀ statement ∈ statements,
      statement.Within (fun levels => Expr.FitsIn levels) levels)
    {lead : Lead} {cursor : Cursor} {tokens others : List Token} {limit : Nat}
    (hspellable : Statement.listIsSpellable cursor.isArray statements = true)
    (hlaid : Statement.listIsLaidOut lines open_ statements = true)
    (hrest : cursor.rest = afterSeparator tokens)
    (hshows : Shows (Mark.faces (Statement.listMarks gap Mark.colon lead statements)) tokens others)
    (hlast : ∀ statement ∈ statements.getLast?, statement.endsBefore (firstKind others) = true)
    (hends : ends (firstKind (afterSeparator others)) = true)
    (hlimit : cursor.rest.length ≤ limit) :
    ∃ found last, blockWithin (statement levels) ends limit cursor = (found, last) ∧
      found.map Statement.unplaced = statements.map Statement.unplaced ∧
      Reaches cursor (Statement.listDeclarations statements) (afterSeparator others) last := by
  induction statements generalizing lead cursor tokens limit with
  | nil =>
    rw [Shows.eq_of_nil hshows] at hrest
    refine ⟨[], cursor, blockWithin_of_ends ?_ limit, rfl, .of_moves (drift_moves.refl _) hrest⟩
    rw [cursor.peek_kind_eq, hrest, hends]
  | cons head tail ih =>
    obtain ⟨middle, hhead, htail, -⟩ := exists_of_shows_listMarks hshows
    obtain ⟨hinside, hline, -, hlaidTail⟩ := Statement.listIsLaidOut_cons.1 hlaid
    rw [Statement.listIsSpellable, Bool.and_eq_true] at hspellable
    rw [← hrest] at hhead
    have hpeek : cursor.peek.kind = head.openingKind := by
      rw [cursor.peek_kind_eq]
      exact Statement.firstKind_of_shows hhead
    -- the first statement, which ends before the others start
    have hbefore : head.endsBefore (firstKind middle) = true :=
      Statement.endsBefore_of_shows hlaid htail fun hnil => hlast head (by rw [hnil]; rfl)
    obtain ⟨first, next, hrun, hsame, hreaches⟩ := h head List.mem_cons_self levels cursor.advance
      middle hspellable.1 hinside (hwithin head List.mem_cons_self) hhead hbefore
    -- the statement took a token, so the bound for the others is one less
    have hlt : next.rest.length < cursor.rest.length := by
      have hne : cursor.advance.current.kind ≠ .eof := by
        rw [current_advance, hpeek]
        exact Statement.openingKind_ne_eof
      have hlt := length_statement_advance_lt levels hne
      rwa [hrun] at hlt
    obtain ⟨limit, rfl⟩ : ∃ fewer, limit = fewer + 1 := ⟨limit - 1, by omega⟩
    have hfewer : next.rest.length ≤ limit := by omega
    have hlastTail : ∀ statement ∈ tail.getLast?,
        statement.endsBefore (firstKind others) = true := by
      intro statement hmem
      refine hlast statement ?_
      cases tail with
      | nil => cases hmem
      | cons next tail => rwa [List.getLast?_cons_cons]
    obtain ⟨found, last, hruns, hsames, hreaches'⟩ :=
      ih (fun statement hmem => h statement (List.mem_cons_of_mem _ hmem))
        (fun statement hmem => hwithin statement (List.mem_cons_of_mem _ hmem))
        (by rw [hreaches.isArray]; exact hspellable.2) hlaidTail hreaches.rest htail hlastTail
        hfewer
    refine ⟨first :: found, last, ?_, ?_, ?_⟩
    · rw [blockWithin_of_not_ends (by rw [hpeek, hopens head hline]), hrun, hruns]
      rfl
    · rw [List.map_cons, List.map_cons, hsame, hsames]
    · exact Reaches.of_move (drift_moves.advance cursor) (hreaches.trans hreaches')

/-! ## Arms -/

/-- An arm behind `THEN` ends at an `ELSE`, at a line number or at the end. -/
theorem endsThen_iff {kind : Token.Kind} :
    endsThen kind = true ↔ kind = .eof ∨ kind = .lineNo ∨ kind = .word .else_ := by
  simp [endsThen]

/-- What an arm of an `IF` needs to be parsed back. It ends before the others. -/
structure ArmReady (gap levels : Nat) (open_ : Bool) (cursor : Cursor) (arm : Branch)
    (others : List Token) : Prop where
  parsesBack : ∀ statement ∈ arm.statements, ParsesBack gap statement
  within : ∀ statement ∈ arm.statements,
    statement.Within (fun levels => Expr.FitsIn levels) levels
  isSpellable : arm.isSpellable cursor.isArray = true
  isLaidOut : arm.isLaidOut open_ = true
  shows : Shows (Mark.faces (arm.marks gap Mark.colon)) cursor.rest others
  endsThen : endsThen (firstKind others) = true
  endsBefore : ∀ statement ∈ arm.statements.getLast?,
    statement.endsBefore (firstKind others) = true

section Arms

variable {open_ : Bool} {cursor : Cursor} {others : List Token} {ends : Token.Kind → Bool}

/-- A colon on its own is passed over. -/
theorem blockWithin_colon {limit : Nat} (hkind : cursor.peek.kind = .sym .colon)
    (hends : ends (.sym .colon) = false) :
    blockWithin (statement (levels + 1)) ends (limit + 1) cursor =
      blockWithin (statement (levels + 1)) ends limit cursor.advance := by
  have hrule : statement (levels + 1) cursor.advance = (none, cursor.advance) := by
    rw [statement, recover, statementRule_apply, current_advance, hkind]
  rw [blockWithin_of_not_ends (by rw [hkind, hends]), hrule]
  rfl

/-- No colon is passed over where an arm has ended. -/
theorem afterSeparator_of_endsThen (h : endsThen (firstKind others) = true) :
    afterSeparator others = others := by
  refine afterSeparator_of_ne fun hcolon => ?_
  rw [hcolon] at h
  cases h

/-- Where the statements of an arm start, a colon in front of a label left out. -/
theorem exists_blockWithin_arm {statements : List Statement} {lead : Lead} {tokens : List Token}
    {limit : Nat} (h : ArmReady gap levels open_ cursor (.block statements) others)
    (hopens : ∀ statement : Statement, statement.isLine = false →
      ends statement.openingKind = false)
    (hends : ends (firstKind others) = true) {start : Cursor} (hmoves : Moves cursor start)
    (hrest : start.rest = afterSeparator tokens)
    (hshows : Shows (Mark.faces (Statement.listMarks gap Mark.colon lead statements)) tokens others)
    (hlimit : start.rest.length ≤ limit) :
    ∃ found last, blockWithin (statement levels) ends limit start = (found, last) ∧
      found.map Statement.unplaced = statements.map Statement.unplaced ∧
      Reaches cursor (Statement.listDeclarations statements) others last := by
  have hspellable : Statement.listIsSpellable start.isArray statements = true := by
    rw [hmoves.isArray]
    exact h.isSpellable
  have hopens' (statement : Statement) (hline : statement.isLine = true → false = true) :
      ends statement.openingKind = false :=
    hopens statement (Bool.eq_false_iff.2 fun heq => Bool.noConfusion (hline heq))
  have hafter := afterSeparator_of_endsThen h.endsThen
  obtain ⟨found, last, hrun, hsame, hreaches⟩ := exists_blockWithin hopens' h.parsesBack h.within
    hspellable h.isLaidOut hrest hshows h.endsBefore (by rw [hafter, hends]) hlimit
  rw [hafter] at hreaches
  exact ⟨found, last, hrun, hsame, .of_move hmoves hreaches⟩

/-- An arm starts with a colon if its first statement is a label, and never with what would be a
jump. -/
theorem ArmReady.firstKind_rest {statements : List Statement}
    (h : ArmReady gap levels open_ cursor (.block statements) others) :
    firstKind cursor.rest ≠ .num ∧ firstKind cursor.rest ≠ .sym .asterisk ∧
      (firstKind cursor.rest = .sym .colon ↔ statements.head?.any Statement.isLabel = true) := by
  have hshows := h.shows
  rw [Branch.marks, Statement.armLead] at hshows
  cases statements with
  | nil =>
    -- of an empty arm, the first token is what ends it
    rw [Shows.eq_of_nil hshows]
    rcases endsThen_iff.1 h.endsThen with hkind | hkind | hkind <;> rw [hkind] <;> simp
  | cons head tail =>
    obtain ⟨-, -, -, hfirst⟩ := exists_of_shows_listMarks hshows
    -- an arm cannot start with a line number, and a label gets a colon in front
    have hline : head.isLine = false :=
      Bool.eq_false_iff.2 fun heq =>
        Bool.noConfusion ((Statement.listIsLaidOut_cons.1 h.isLaidOut).2.1 heq)
    cases head with
    | lineNumber => cases hline
    | _ =>
      simp [hfirst, Statement.isLine, Statement.isLabel, Lead.takesColon, Statement.openingKind]

/-- The statements of an arm. -/
theorem ArmReady.exists_block {statements : List Statement}
    (h : ArmReady gap levels open_ cursor (.block statements) others)
    (hopens : ∀ statement : Statement, statement.isLine = false →
      ends statement.openingKind = false)
    (hcolon : ends (.sym .colon) = false) (hends : ends (firstKind others) = true) :
    ∃ found last, block (statement levels) ends cursor = .ok found last ∧
      found.map Statement.unplaced = statements.map Statement.unplaced ∧
      Reaches cursor (Statement.listDeclarations statements) others last := by
  suffices hblock : ∃ found last,
      blockWithin (statement levels) ends cursor.tokens.length cursor = (found, last) ∧
      found.map Statement.unplaced = statements.map Statement.unplaced ∧
      Reaches cursor (Statement.listDeclarations statements) others last by
    obtain ⟨found, last, hrun, hfound⟩ := hblock
    exact ⟨found, last, block_eq_ok.2 hrun, hfound⟩
  by_cases hkind : cursor.peek.kind = .sym .colon
  · -- a colon stands before a label, and the parser takes it for an empty statement
    have hcons := rest_eq_cons_of_kind hkind (by decide)
    have hlength := length_tokens_of_peek (hkind ▸ by decide : cursor.peek.kind ≠ .eof)
    obtain ⟨first, hfirst⟩ : ∃ first, first ∈ statements := by
      rw [cursor.peek_kind_eq] at hkind
      have hlabel := h.firstKind_rest.2.2.1 hkind
      cases statements with
      | nil => cases hlabel
      | cons head tail => exact ⟨head, List.mem_cons_self⟩
    obtain ⟨fewer, rfl⟩ := (h.within first hfirst).exists_succ
    rw [hlength, blockWithin_colon hkind hcolon]
    refine exists_blockWithin_arm h hopens hends (drift_moves.advance _) ?_ h.shows ?_
    · rw [hcons, afterSeparator, if_pos hkind]
    · rw [hcons]
      exact Nat.le_succ _
  · rw [cursor.peek_kind_eq] at hkind
    exact exists_blockWithin_arm h hopens hends (drift_moves.refl _)
      (afterSeparator_of_ne hkind).symm h.shows (List.tail_suffix _).length_le

/-- An arm, `THEN` or `ELSE` being the current token. -/
theorem ArmReady.exists_branch {arm : Branch} (h : ArmReady gap levels open_ cursor arm others)
    (hopens : ∀ statement : Statement, statement.isLine = false →
      ends statement.openingKind = false)
    (hcolon : ends (.sym .colon) = false) (hends : ends (firstKind others) = true) :
    ∃ found last, branch (statement levels) ends cursor = .ok found last ∧
      (found.relocate fun _ => .start) = (arm.relocate fun _ => .start) ∧
      Reaches cursor arm.declarations others last := by
  cases arm with
  | goto target =>
    have hshows := h.shows
    rw [Branch.marks, Mark.faces_space] at hshows
    have hkind : cursor.peek.kind = .num ∨ cursor.peek.kind = .sym .asterisk := by
      rw [cursor.peek_kind_eq]
      exact target.firstKind_of_shows hshows
    obtain ⟨found, last, hrun, hsame, hreaches⟩ := jumpTarget_finds target cursor others hshows
    have hreaches' := hreaches.skipSeparator
    rw [afterSeparator_of_endsThen h.endsThen] at hreaches'
    -- nothing comes behind the target, so the block behind it is empty
    have hstop : ends last.skipSeparator.peek.kind = true := by
      rw [Cursor.peek_kind_eq, hreaches'.rest, hends]
    refine ⟨.goto found, last.skipSeparator, ?_, congrArg Branch.goto hsame, hreaches'⟩
    simp only [branch, bind_eq_ok, current_apply, peek_apply]
    refine ⟨_, _, rfl, _, _, rfl, ?_⟩
    rw [if_pos hkind]
    simp only [bind_eq_ok, skipSeparator_apply]
    exact ⟨_, _, hrun, (), _, rfl, [], _, block_of_ends hstop, rfl⟩
  | block statements =>
    -- a label that comes first has a colon in front, so no statement is taken for a target
    obtain ⟨hnum, hasterisk, -⟩ := h.firstKind_rest
    rw [← cursor.peek_kind_eq] at hnum hasterisk
    obtain ⟨found, last, hrun, hsame, hreaches⟩ := h.exists_block hopens hcolon hends
    refine ⟨.block found, last, ?_, ?_, hreaches⟩
    · simp only [branch, bind_eq_ok, current_apply, peek_apply]
      refine ⟨_, _, rfl, _, _, rfl, ?_⟩
      rw [if_neg (not_or.2 ⟨hnum, hasterisk⟩), bind_eq_ok]
      exact ⟨_, _, hrun, rfl⟩
    · rw [Branch.relocate, Branch.relocate, Statement.relocateAll_eq_map,
        Statement.relocateAll_eq_map]
      exact congrArg Branch.block hsame

end Arms

/-! ## Choices -/

/-- What ends an `ELSE` arm ends every statement in it. -/
theorem endsBefore_of_endsElse {kind : Token.Kind} (statement : Statement)
    (h : endsElse kind = true) : statement.endsBefore kind = true := by
  rcases endsElse_iff.1 h with rfl | rfl <;>
    cases statement with
    | lineNumber name data loc => cases data <;> rfl
    | _ => rfl

/-- No `IF` is the last of some statements where something follows them in the line. -/
theorem isCond_of_getLast? {lines : Bool} {statements : List Statement}
    (h : Statement.listIsLaidOut lines false statements = true) :
    ∀ statement ∈ statements.getLast?, statement.isCond = false := by
  induction statements with
  | nil => exact fun _ hmem => nomatch hmem
  | cons head tail ih =>
    obtain ⟨-, -, hcond, htail⟩ := Statement.listIsLaidOut_cons.1 h
    -- only the last statement counts, and the induction gets there
    cases tail with
    | nil =>
      intro statement hmem
      cases hmem
      exact Bool.eq_false_iff.2 fun heq => Bool.noConfusion (hcond heq)
    | cons next tail =>
      rw [List.getLast?_cons_cons]
      exact ih htail

/-- An arm before `ELSE` ends there. -/
theorem endsBefore_else {arm : Branch} (h : arm.isLaidOut false = true) :
    ∀ statement ∈ arm.statements.getLast?, statement.endsBefore (.word .else_) = true := by
  cases arm with
  | goto target => exact fun _ hmem => nomatch hmem
  | block statements =>
    intro statement hmem
    have hcond := isCond_of_getLast? h statement hmem
    have hline := (Statement.isLaidOut_of_mem h statement (List.mem_of_getLast? hmem)).2
    cases statement with
    | lineNumber => cases hline rfl
    | cond => cases hcond
    | _ => rfl

/-- A statement that opens no line does not end an arm behind `THEN`. -/
theorem endsThen_openingKind (statement : Statement) (h : statement.isLine = false) :
    endsThen statement.openingKind = false := by
  cases statement with
  | lineNumber => cases h
  | _ => rfl

/-- A statement that opens no line does not end an arm behind `ELSE`. -/
theorem endsElse_openingKind (statement : Statement) (h : statement.isLine = false) :
    endsElse statement.openingKind = false := by
  cases statement with
  | lineNumber => cases h
  | _ => rfl

section Statements

variable {cursor : Cursor} {others : List Token}

theorem endsThen_of_endsElse {kind : Token.Kind} (h : endsElse kind = true) :
    endsThen kind = true :=
  endsThen_iff.2 ((endsElse_iff.1 h).imp_right .inl)

/-- The first arm, `THEN` being the current token. It ends before `ELSE`, or the line does. -/
theorem exists_consequence {consequence : Branch} {alternative : Option Branch}
    (hparses : ∀ statement ∈ consequence.statements, ParsesBack gap statement)
    (hwithin : ∀ statement ∈ consequence.statements,
      statement.Within (fun levels => Expr.FitsIn levels) levels)
    (h : consequence.isSpellable cursor.isArray = true)
    (hlaid : consequence.isLaidOut alternative.isNone = true)
    (hshows : Shows (Mark.faces (consequence.marks gap Mark.colon ++
      Branch.elseMarks gap Mark.colon alternative)) cursor.rest others)
    (hothers : endsElse (firstKind others) = true) :
    ∃ found last tokens, branch (statement levels) endsThen cursor = .ok found last ∧
      (found.relocate fun _ => .start) = (consequence.relocate fun _ => .start) ∧
      Reaches cursor consequence.declarations tokens last ∧
      Shows (Mark.faces (Branch.elseMarks gap Mark.colon alternative)) tokens others := by
  rw [Mark.faces_append] at hshows
  obtain ⟨tokens, hfirst, hsecond⟩ := hshows.exists_of_append
  -- what ends the first arm is the `ELSE`, if there is one, and else what ends the statement
  have hends : endsThen (firstKind tokens) = true ∧
      ∀ statement ∈ consequence.statements.getLast?,
        statement.endsBefore (firstKind tokens) = true := by
    cases alternative with
    | none =>
      rw [Shows.eq_of_nil hsecond]
      exact ⟨endsThen_of_endsElse hothers, fun statement _ =>
        endsBefore_of_endsElse statement hothers⟩
    | some arm =>
      rw [Branch.elseMarks, Mark.faces_space, Mark.faces_keyword] at hsecond
      rw [hsecond.firstKind_eq]
      exact ⟨rfl, endsBefore_else hlaid⟩
  have hready : ArmReady gap levels alternative.isNone cursor consequence tokens :=
    ⟨hparses, hwithin, h, hlaid, hfirst, hends.1, hends.2⟩
  obtain ⟨found, last, hrun, hsame, hreaches⟩ :=
    hready.exists_branch endsThen_openingKind rfl hends.1
  exact ⟨found, last, tokens, hrun, hsame, hreaches, hsecond⟩

/-- An `IF` is found again if the statements of its arms are. -/
theorem findsStatement_cond {condition : Expr} {consequence : Branch} {alternative : Option Branch}
    {loc : Location}
    (hchildren : ∀ child ∈ (Statement.cond condition consequence alternative loc).children,
      ParsesBack gap child)
    (h : (Statement.cond condition consequence alternative loc).isSpellable cursor.isArray = true)
    (hlaid : (Statement.cond condition consequence alternative loc).isLaidOut = true)
    (hfits : condition.FitsIn levels)
    (hwithin : ∀ child ∈ (Statement.cond condition consequence alternative loc).children,
      child.Within (fun levels => Expr.FitsIn levels) levels)
    (hshows : Shows (Mark.faces
      ((Statement.cond condition consequence alternative loc).marks gap Mark.colon)) cursor.tokens
      others)
    (hothers : endsElse (firstKind others) = true) :
    FindsStatement (levels + 1) cursor (.cond condition consequence alternative loc) others := by
  simp only [Statement.isSpellable, Bool.and_eq_true] at h
  simp only [Statement.isLaidOut, Bool.and_eq_true] at hlaid
  obtain ⟨⟨hcondition, hconsequence⟩, halternative⟩ := h
  have hafter := afterSeparator_of_endsThen (endsThen_of_endsElse hothers)
  -- the condition
  rw [Statement.marks, Mark.faces_keyword, Mark.faces_space, Mark.faces_append, Mark.faces_space,
    Mark.faces_keyword] at hshows
  obtain ⟨hkind, -, hrest⟩ := hshows.current
  obtain ⟨middle, hmarks, hthen⟩ := hrest.exists_of_append
  obtain ⟨value, next, hrun, hsame, hmoves, rfl⟩ :=
    exists_nextExpression hcondition hfits rfl hmarks (by rw [hthen.firstKind_eq]; decide)
  obtain ⟨hword, -, harms⟩ := hthen.peek
  have hmoves' := drift_moves.trans hmoves (drift_moves.advance next)
  -- the first arm
  obtain ⟨found, last, tokens, hbranch, hsames, hreaches, hsecond⟩ := exists_consequence
    (fun child hmem => hchildren child (List.mem_append_left _ hmem))
    (fun child hmem => hwithin child (List.mem_append_left _ hmem))
    (by rw [hmoves'.isArray]; exact hconsequence) hlaid.1 harms hothers
  rw [← hreaches.rest] at hsecond
  cases alternative with
  | none =>
    have hpeek : last.peek.kind ≠ .word .else_ := by
      rw [last.peek_kind_eq, Shows.eq_of_nil hsecond]
      rcases endsElse_iff.1 hothers with heq | heq <;> rw [heq] <;> decide
    have hall : Reaches cursor (consequence.declarations ++ []) (afterSeparator others) last := by
      rw [hafter, List.append_nil, ← Shows.eq_of_nil hsecond, hreaches.rest]
      exact .of_move hmoves' hreaches
    refine .of_rule (.cond value found none cursor.current.loc)
      (by rw [statementRule_apply, hkind]) ?_ ?_ hall
    · simp only [cond, bind_eq_ok, current_apply, expect_eq_ok, peek_apply]
      refine ⟨_, _, rfl, _, _, hrun, _, _, ⟨hword, rfl, rfl⟩, _, _, hbranch, _, _, rfl, ?_⟩
      rw [if_neg hpeek]
      rfl
    · exact congrArg₂ (Statement.cond · · none .start) hsame hsames
  | some arm =>
    -- the second arm, up to the end of the line
    rw [Branch.elseMarks, Mark.faces_space, Mark.faces_keyword] at hsecond
    obtain ⟨helse, -, hmarks'⟩ := hsecond.peek
    have harrays : last.advance.isArray = consequence.declarations.addedTo cursor.isArray := by
      rw [← hmoves'.isArray]
      exact hreaches.isArray
    have hready : ArmReady gap levels true last.advance arm others := by
      refine ⟨fun child hmem => hchildren child ?_, fun child hmem => hwithin child ?_,
        by rw [harrays]; exact halternative, hlaid.2, hmarks', endsThen_of_endsElse hothers,
        fun statement _ => endsBefore_of_endsElse statement hothers⟩
      · exact List.mem_append_right _ (by simpa using hmem)
      · exact List.mem_append_right _ (by simpa using hmem)
    obtain ⟨found', last', hbranch', hsames', hreaches'⟩ :=
      hready.exists_branch endsElse_openingKind rfl hothers
    have hall : Reaches cursor (consequence.declarations ++ arm.declarations)
        (afterSeparator others) last' := by
      rw [hafter]
      exact .of_move hmoves' (hreaches.trans (.of_move (drift_moves.advance _) hreaches'))
    refine .of_rule (.cond value found (some found') cursor.current.loc)
      (by rw [statementRule_apply, hkind]) ?_ ?_ hall
    · simp only [cond, bind_eq_ok, current_apply, expect_eq_ok, peek_apply]
      refine ⟨_, _, rfl, _, _, hrun, _, _, ⟨hword, rfl, rfl⟩, _, _, hbranch, _, _, rfl, ?_⟩
      rw [if_pos helse]
      simp only [bind_eq_ok, advance_apply]
      exact ⟨_, _, rfl, _, _, hbranch', rfl⟩
    · change Statement.cond value.unplaced (found.relocate _) (some (found'.relocate _)) .start = _
      rw [hsame, hsames, hsames']
      rfl

/-! ## Loops -/

/-- The head of a loop may end at a line number or with a colon. -/
theorem loopHeadEnd_eq (h : cursor.peek.kind = .lineNo ∨ cursor.peek.kind = .sym .colon) :
    loopHeadEnd cursor = .ok () cursor.skipSeparator := by
  rw [loopHeadEnd, bind_apply, peek_apply]
  dsimp only
  rcases h with h | h
  · rw [if_pos h, Cursor.skipSeparator, peekIs, h]
    rfl
  · rw [if_neg (by rw [h]; decide), Cursor.skipSeparator, peekIs, h, bind_apply, expect_apply,
      if_pos h]
    rfl

/-- A `NEXT` without a counter ends any loop. -/
theorem loopEnd_bare {counter : String} (hnext : cursor.peek.kind = .word .next)
    (hident : cursor.advance.peek.kind ≠ .ident) :
    loopEnd counter cursor = .ok () cursor.advance.skipSeparator := by
  simp only [loopEnd, bind_eq_ok, expect_eq_ok, peek_apply]
  refine ⟨_, _, ⟨hnext, rfl, rfl⟩, _, _, rfl, ?_⟩
  rw [if_neg hident]
  rfl

/-- The last statement of the body of a loop ends before what divides it from `NEXT`. -/
theorem endsBefore_next {statement : Statement} (h : statement.isCond = false) :
    statement.endsBefore (if statement.lead.takesColon then .sym .colon else .word .next) =
      true := by
  cases statement with
  | lineNumber name data loc => cases data <;> rfl
  | cond => cases h
  | _ => rfl

theorem endsBody_openingKind (statement : Statement) : endsBody statement.openingKind = false := by
  cases statement <;> rfl

section Bodies

variable {body : List Statement} {tokens : List Token}

/-- The tokens that divide the body of a loop from its end, and the end. -/
theorem exists_of_shows_body
    (h : Shows (Mark.faces (Statement.listMarks gap Mark.colon .statement body ++
      ((Statement.listLead .statement body).marks Mark.colon ++ [.keyword .next]))) tokens others) :
    ∃ middle, Shows (Mark.faces (Statement.listMarks gap Mark.colon .statement body)) tokens
        middle ∧
      firstKind middle =
        (if (Statement.listLead .statement body).takesColon then .sym .colon else .word .next) ∧
      Shows [(.word .next, Keyword.next.spelling)] (afterSeparator middle) others := by
  rw [Mark.faces_append, Mark.faces_append] at h
  obtain ⟨middle, hlist, h⟩ := h.exists_of_append
  obtain ⟨first, hlead, hnext⟩ := h.exists_of_append
  rw [Mark.faces_keyword] at hnext
  obtain ⟨hafter, hkind⟩ := Lead.afterSeparator_eq hlead (by rw [hnext.firstKind_eq]; decide)
  rw [hnext.firstKind_eq] at hkind
  exact ⟨middle, hlist, hkind, hafter.symm ▸ hnext⟩

/-- The body of a loop starts a line, or a colon divides it from the head. -/
theorem firstKind_of_shows_body
    (h : Shows (Mark.faces (Statement.listMarks gap Mark.colon .statement body ++
      ((Statement.listLead .statement body).marks Mark.colon ++ [.keyword .next]))) tokens others) :
    firstKind tokens = .lineNo ∨ firstKind tokens = .sym .colon := by
  obtain ⟨middle, hlist, hkind, -⟩ := exists_of_shows_body h
  cases body with
  | nil =>
    rw [Shows.eq_of_nil hlist]
    exact .inr hkind
  | cons head tail =>
    obtain ⟨-, -, -, hfirst⟩ := exists_of_shows_listMarks hlist
    rw [hfirst]
    cases hline : head.isLine with
    | true => exact .inl (Statement.openingKind_of_isLine hline)
    | false => exact .inr rfl

/-- The body of a loop and its end, behind the colon that divides it from the head. -/
theorem exists_body (counter : String) (hbody : ∀ statement ∈ body, ParsesBack gap statement)
    (hwithin : ∀ statement ∈ body, statement.Within (fun levels => Expr.FitsIn levels) levels)
    (h : Statement.listIsSpellable cursor.isArray body = true)
    (hlaid : Statement.listIsLaidOut true false body = true)
    (hshows : Shows (Mark.faces (Statement.listMarks gap Mark.colon .statement body ++
      ((Statement.listLead .statement body).marks Mark.colon ++ [.keyword .next]))) tokens others)
    (hrest : cursor.rest = afterSeparator tokens) (hothers : firstKind others ≠ .ident) :
    ∃ found middle last, block (statement levels) endsBody cursor = .ok found middle ∧
      loopEnd counter middle = .ok () last ∧
      found.map Statement.unplaced = body.map Statement.unplaced ∧
      Reaches cursor (Statement.listDeclarations body) (afterSeparator others) last := by
  obtain ⟨end_, hlist, hkind, hnext⟩ := exists_of_shows_body hshows
  have hlast : ∀ statement ∈ body.getLast?, statement.endsBefore (firstKind end_) = true := by
    intro statement hmem
    have hend := endsBefore_next (isCond_of_getLast? hlaid statement hmem)
    rwa [hkind, Statement.listLead, hmem]
  have hends : endsBody (firstKind (afterSeparator end_)) = true := by
    rw [hnext.firstKind_eq]
    rfl
  obtain ⟨found, middle, hrun, hsame, hreaches⟩ := exists_blockWithin
    (fun statement _ => endsBody_openingKind statement) hbody hwithin h hlaid hrest hlist hlast
    hends (List.tail_suffix cursor.tokens).length_le
  -- `NEXT` without a counter
  rw [← hreaches.rest] at hnext
  obtain ⟨hword, -, hlastRest⟩ := hnext.peek
  have hident : middle.advance.peek.kind ≠ .ident := by
    rwa [Cursor.peek_kind_eq, hlastRest.eq_of_nil]
  refine ⟨found, middle, middle.advance.skipSeparator, block_eq_ok.2 hrun,
    loopEnd_bare hword hident, hsame, ?_⟩
  exact (hreaches.move (drift_moves.advance _) hlastRest.eq_of_nil).skipSeparator

end Bodies

/-- A loop is found again if the statements of its body are. -/
theorem findsStatement_loop {counter : String} {first last step : Expr} {body : List Statement}
    {loc : Location} (hbody : ∀ statement ∈ body, ParsesBack gap statement)
    (h : (Statement.loop counter first last step body loc).isSpellable cursor.isArray = true)
    (hlaid : (Statement.loop counter first last step body loc).isLaidOut = true)
    (hfits : ∀ e ∈ [first, last, step], e.FitsIn levels)
    (hwithin : ∀ statement ∈ body, statement.Within (fun levels => Expr.FitsIn levels) levels)
    (hshows : Shows (Mark.faces
      ((Statement.loop counter first last step body loc).marks gap Mark.colon)) cursor.tokens
      others)
    (hothers : firstKind others ≠ .ident) :
    FindsStatement (levels + 1) cursor (.loop counter first last step body loc) others := by
  simp only [Statement.isSpellable, Bool.and_eq_true] at h
  obtain ⟨⟨⟨⟨-, hfirst⟩, hlast⟩, hstep⟩, hspellable⟩ := h
  simp only [List.forall_mem_cons, List.not_mem_nil, false_implies, implies_true, and_true] at hfits
  obtain ⟨hfirstFits, hlastFits, hstepFits⟩ := hfits
  rw [Statement.marks, Mark.faces_keyword, Mark.faces_space, Mark.faces_name, Mark.faces_space,
    Mark.faces_symbol, Mark.faces_space, Mark.faces_append, Mark.faces_space, Mark.faces_keyword,
    Mark.faces_space, Mark.faces_append, Mark.faces_space, Mark.faces_keyword, Mark.faces_space,
    Mark.faces_append] at hshows
  -- the counter and the first of its bounds
  obtain ⟨hkind, -, hrest⟩ := hshows.current
  obtain ⟨hident, hliteral, hrest⟩ := hrest.peek
  obtain ⟨hequals, -, hrest⟩ := hrest.peek
  obtain ⟨tokens, hmarks, hto⟩ := hrest.exists_of_append
  have hmoves := drift_moves.trans (drift_moves.advance cursor) (drift_moves.advance _)
  obtain ⟨first', next, hfirstRun, hfirstSame, hfirstMoves, rfl⟩ :=
    exists_nextExpression hfirst hfirstFits hmoves.isArray hmarks
      (by rw [hto.firstKind_eq]; decide)
  have hmoves := drift_moves.trans hmoves
    (drift_moves.trans hfirstMoves (drift_moves.advance next))
  -- the last of its bounds
  obtain ⟨htoKind, -, hrest⟩ := hto.peek
  obtain ⟨tokens, hmarks, hstepWord⟩ := hrest.exists_of_append
  obtain ⟨last', next', hlastRun, hlastSame, hlastMoves, rfl⟩ :=
    exists_nextExpression hlast hlastFits hmoves.isArray hmarks
      (by rw [hstepWord.firstKind_eq]; decide)
  have hmoves := drift_moves.trans hmoves
    (drift_moves.trans hlastMoves (drift_moves.advance next'))
  -- its step
  obtain ⟨hstepKind, -, hrest⟩ := hstepWord.peek
  obtain ⟨tokens, hmarks, hbodyMarks⟩ := hrest.exists_of_append
  have hend := firstKind_of_shows_body hbodyMarks
  obtain ⟨step', next'', hstepRun, hstepSame, hstepMoves, rfl⟩ :=
    exists_nextExpression hstep hstepFits hmoves.isArray hmarks
      (by rcases hend with heq | heq <;> rw [heq] <;> decide)
  have hloopStep : loopStep (expression levels) cursor.current.loc next' = .ok step' next'' := by
    rw [loopStep, bind_apply, peek_apply]
    dsimp only
    rw [if_pos hstepKind]
    exact hstepRun
  -- the body
  rw [← Cursor.peek_kind_eq] at hend
  have hmoves := drift_moves.trans hmoves
    (drift_moves.trans hstepMoves (drift_moves.skipSeparator next''))
  obtain ⟨found, middle, final, hblock, hloopEnd, hsames, hreaches⟩ := exists_body
    cursor.peek.literal hbody hwithin (hmoves.isArray ▸ hspellable) hlaid hbodyMarks
    (rest_skipSeparator next'') hothers
  refine .of_rule (.loop counter first' last' step' found cursor.current.loc)
    (by rw [statementRule_apply, hkind]) ?_ ?_ (.of_move hmoves hreaches)
  · simp only [loop, bind_eq_ok, current_apply, expect_eq_ok]
    refine ⟨_, _, rfl, _, _, ⟨hident, rfl, rfl⟩, _, _, ⟨hequals, rfl, rfl⟩, _, _, hfirstRun, _, _,
      ⟨htoKind, rfl, rfl⟩, _, _, hlastRun, _, _, hloopStep, (), _, loopHeadEnd_eq hend, _, _,
      hblock, (), _, hloopEnd, ?_⟩
    rw [hliteral]
    rfl
  · simp only [Statement.unplaced, Statement.relocate, Statement.relocateAll_eq_map]
    change Statement.loop counter first'.unplaced last'.unplaced step'.unplaced
      (found.map Statement.unplaced) .start = _
    rw [hfirstSame, hlastSame, hstepSame, hsames]
    rfl

/-! ## All statements -/

/-- What holds of each kind that statements end before. -/
theorem of_mem_followers {kind : Token.Kind} (h : decide (kind ∈ Statement.followers) = true)
    {p : Token.Kind → Bool} (hp : Statement.followers.all p = true) : p kind = true :=
  List.all_eq_true.1 hp kind (of_decide_eq_true h)

/-- A written statement is what the parser finds. -/
theorem parsesBack (gap : Nat) (statement : Statement) : ParsesBack gap statement := by
  induction statement using Statement.induction with
  | step statement ih =>
    intro levels cursor others h hlaid hwithin hshows hothers
    -- most rules need only that one kind of token, which no follower is, does not come next
    have hne {kind : Token.Kind} (hkind : decide (firstKind others ∈ Statement.followers) = true)
        (hall : Statement.followers.all (· != kind) = true) : firstKind others ≠ kind :=
      bne_iff_ne.1 (of_mem_followers hkind hall)
    cases hwithin with
    | @intro levels _ hheads hoperands hchildren =>
      cases statement with
      | lineNumber name data loc =>
        cases data with
        | none =>
          simp only [Statement.endsBefore, Bool.and_eq_true, bne_iff_ne] at hothers
          exact findsStatement_lineNumber hshows hothers.1 hothers.2
        | some data =>
          simp only [Statement.isSpellable, Bool.and_eq_true, Option.all_some, beq_iff_eq] at h
          exact findsStatement_dataLine h.2.1 hshows
      | label name loc => exact findsStatement_label hshows
      | dim arrays loc => exact findsStatement_dim h hshows (hne hothers (by decide))
      | cond condition consequence alternative loc =>
        exact findsStatement_cond ih h hlaid (hoperands condition List.mem_cons_self) hchildren
          hshows hothers
      | on value kind targets loc =>
        exact findsStatement_on h (hoperands value List.mem_cons_self) rfl hshows
          (hne hothers (by decide))
      | goto target loc =>
        exact findsStatement_jump .goto (fun hkind => by rw [statementRule_apply, hkind]; rfl)
          (fun _ _ => rfl) rfl hshows
      | gosub target loc =>
        exact findsStatement_jump .gosub (fun hkind => by rw [statementRule_apply, hkind]; rfl)
          (fun _ _ => rfl) rfl hshows
      | ret loc => exact findsStatement_ret hshows
      | loop counter first last step body loc =>
        exact findsStatement_loop ih h hlaid hoperands hchildren hshows (hne hothers (by decide))
      | assign name indices value loc =>
        exact findsStatement_assign h (hheads _ List.mem_cons_self)
          (hoperands value List.mem_cons_self) rfl hshows (of_mem_followers hothers (by decide))
      | call function arguments loc =>
        exact findsStatement_call h (hheads _ List.mem_cons_self) rfl hshows

end Statements

end Grammar

end LineBasic
