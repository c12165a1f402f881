import LineBasic.Proofs.Nesting
import LineBasic.Proofs.Spelling.Program.Scan

/-!
# Parsing written statements

The parser finds in the tokens of a written statement the statement itself, up to the places of its
parts (`Grammar.FindsStatement`). This is shown here for the statements in which no others stand,
each from what the parser finds in its items and expressions.

A statement takes in the colon behind it, so the parser stands behind that colon once it has found
the statement (`afterSeparator`).
-/

namespace LineBasic

open Cursor Parse

/-- The statement with its places left out. -/
def Statement.unplaced (statement : Statement) : Statement := statement.relocate fun _ => .start

theorem Statement.unplaced_assign (name : String) (indices : List Expr) (value : Expr)
    (loc : Location) :
    (Statement.assign name indices value loc).unplaced =
      .assign name (indices.map Expr.unplaced) value.unplaced .start := by
  rw [unplaced, relocate, Expr.relocateAll_eq_map]
  rfl

theorem Statement.unplaced_call (function : String) (arguments : List Expr) (loc : Location) :
    (Statement.call function arguments loc).unplaced =
      .call function (arguments.map Expr.unplaced) .start := by
  rw [unplaced, relocate, Expr.relocateAll_eq_map]
  rfl

/-! ## The first of some tokens -/

/-- The kind of the first token, or that of the end of the listing. -/
def firstKind (tokens : List Token) : Token.Kind :=
  (tokens.head?.map Token.kind).getD .eof

/-- The next token is the first one of the rest, or the end. -/
theorem Cursor.peek_kind_eq (cursor : Cursor) : cursor.peek.kind = firstKind cursor.rest := by
  cases hrest : cursor.rest with
  | nil => rw [peek_of_rest_nil hrest]; rfl
  | cons token tokens => rw [peek_of_rest_cons hrest]; rfl

/-- Where no colon comes first, nothing is passed over. -/
theorem afterSeparator_of_ne {tokens : List Token} (h : firstKind tokens ≠ .sym .colon) :
    afterSeparator tokens = tokens := by
  cases tokens with
  | nil => rfl
  | cons token tokens => exact if_neg h

namespace Shows

variable {faces : List (Token.Kind × String)} {tokens others : List Token} {kind : Token.Kind}
  {literal : String}

/-- The first token shows the first face. -/
theorem firstKind_eq (h : Shows ((kind, literal) :: faces) tokens others) :
    firstKind tokens = kind := by
  obtain ⟨token, rest, rfl, hkind, -⟩ := h.exists_of_cons
  exact hkind

/-- A colon that comes first is passed over. -/
theorem afterSeparator (h : Shows ((.sym .colon, literal) :: faces) tokens others) :
    Shows faces (LineBasic.afterSeparator tokens) others := by
  obtain ⟨token, rest, rfl, hkind, -, hrest⟩ := h.exists_of_cons
  rwa [LineBasic.afterSeparator, if_pos hkind]

end Shows

namespace Mark

variable (marks : List Mark)

theorem faces_keyword (keyword : Keyword) :
    faces (Mark.keyword keyword :: marks) = (.word keyword, keyword.spelling) :: faces marks := rfl

theorem faces_name (name : String) :
    faces (token (.ofName name) :: marks) = (.ident, name) :: faces marks := rfl

theorem faces_digits (digits : String) :
    faces (token (.ofDigits digits) :: marks) = (.num, digits) :: faces marks := rfl

theorem faces_line (digits : String) :
    faces (token (.ofLine digits) :: marks) = (.lineNo, digits) :: faces marks := rfl

theorem faces_data (payload : String) :
    faces (token (.ofData payload) :: marks) = (.word .data, payload) :: faces marks := rfl

end Mark

/-! ## Where the parser comes to -/

/-- The parser has come to where the others follow. It has found nothing wrong, and the names of
arrays are those from before and those that the declarations add. -/
structure Reaches (cursor : Cursor) (declarations : Declarations) (others : List Token)
    (last : Cursor) : Prop where
  rest : last.rest = others
  isArray : last.isArray = declarations.addedTo cursor.isArray
  diagnostics : last.diagnostics = cursor.diagnostics

namespace Reaches

variable {cursor middle last : Cursor} {declarations more : Declarations} {others : List Token}

/-- A parser that only moves on declares nothing. -/
theorem of_moves (h : Moves cursor last) (hrest : last.rest = others) :
    Reaches cursor [] others last where
  rest := hrest
  isArray := h.isArray.trans (Declarations.addedTo_nil _).symm
  diagnostics := h.diagnostics

/-- What is declared on two stretches is declared in this order. -/
theorem trans {tokens : List Token} (h : Reaches cursor declarations tokens middle)
    (h' : Reaches middle more others last) :
    Reaches cursor (declarations ++ more) others last where
  rest := h'.rest
  isArray := by rw [h'.isArray, h.isArray, Declarations.addedTo_append]
  diagnostics := h'.diagnostics.trans h.diagnostics

/-- Moving on adds no declarations. -/
theorem move {tokens : List Token} (h : Reaches cursor declarations tokens middle)
    (hmoves : Moves middle last) (hrest : last.rest = others) :
    Reaches cursor declarations others last := by
  simpa using h.trans (of_moves hmoves hrest)

theorem skipSeparator (h : Reaches cursor declarations others last) :
    Reaches cursor declarations (afterSeparator others) last.skipSeparator :=
  h.move (drift_moves.skipSeparator last) (by rw [rest_skipSeparator, h.rest])

/-- An event that is no diagnostic declares nothing. -/
theorem note (h : Reaches cursor declarations others last) {event : Event}
    (hevent : event.diagnostic? = none) : Reaches cursor declarations others (last.note event) where
  rest := h.rest
  isArray := h.isArray
  diagnostics := by
    rw [← h.diagnostics]
    simp [Cursor.diagnostics, Cursor.note, hevent]

/-- Moving on before adds no declarations either. -/
theorem of_move (hmoves : Moves cursor middle) (h : Reaches middle declarations others last) :
    Reaches cursor declarations others last :=
  (of_moves hmoves rfl).trans h

end Reaches

namespace Grammar

variable {cursor : Cursor} {others : List Token} {levels gap : Nat}

/-! ## Items -/

/-- The parser finds the item in the pieces, wherever these stand behind the current token. -/
def FindsItem {α : Type} (item : Parse α) (unplaced : α → α) (marks : List Mark)
    (declarations : Declarations) (value : α) : Prop :=
  ∀ cursor others, Shows (Mark.faces marks) cursor.rest others →
    ∃ found last, item cursor = .ok found last ∧ unplaced found = unplaced value ∧
      Reaches cursor declarations others last

/-- Items with commas between them. -/
theorem exists_commaList {α : Type} {item : Parse α} {unplaced : α → α} {marks : α → List Mark}
    {declarations : α → Declarations} {values : List α} (hleads : Keeps Leads item)
    (h : ∀ value ∈ values, FindsItem item unplaced (marks value) (declarations value) value)
    (hne : values ≠ [])
    (hshows : Shows (Mark.faces (Mark.commas (values.map marks))) cursor.rest others)
    (hothers : firstKind others ≠ .sym .comma) :
    ∃ found last, commaList item cursor = .ok found last ∧
      found.map unplaced = values.map unplaced ∧
      Reaches cursor (values.flatMap declarations) others last := by
  suffices hrun : ∃ found last, CommaRun item cursor found last ∧
      found.map unplaced = values.map unplaced ∧
      Reaches cursor (values.flatMap declarations) others last by
    obtain ⟨found, last, hrun, hsame, hreaches⟩ := hrun
    refine ⟨found, last, hrun.commaList hleads ?_, hsame, hreaches⟩
    rwa [last.peek_kind_eq, hreaches.rest]
  -- the induction is about the run up to the last item, whatever follows it
  induction values generalizing cursor with
  | nil => exact absurd rfl hne
  | cons head tail ih =>
    have hhead := h head List.mem_cons_self
    cases tail with
    | nil =>
      obtain ⟨found, last, hrun, hsame, hreaches⟩ := hhead cursor others hshows
      exact ⟨[found], last, .one hrun, by simp [hsame], by simpa using hreaches⟩
    | cons next tail =>
      rw [List.map_cons, List.map_cons, Mark.commas, Mark.faces_append, Mark.faces_symbol,
        Mark.faces_space] at hshows
      obtain ⟨middle, hfirst, hcomma⟩ := hshows.exists_of_append
      obtain ⟨value, last, hrun, hsame, hreaches⟩ := hhead cursor middle hfirst
      rw [← hreaches.rest] at hcomma
      obtain ⟨hkind, -, hrest⟩ := hcomma.peek
      obtain ⟨found, last', hruns, hsames, hreaches'⟩ :=
        ih (fun value hvalue => h value (List.mem_cons_of_mem _ hvalue)) (List.cons_ne_nil _ _)
          hrest
      refine ⟨value :: found, last', .cons hrun hkind hruns, ?_, ?_⟩
      · rw [List.map_cons, List.map_cons, hsame, hsames]
      · exact hreaches.trans (.of_move (drift_moves.advance _) hreaches')

/-- The marks of a target are read as the target. -/
theorem jumpTarget_finds (target : JumpTarget) :
    FindsItem jumpTarget (·.relocate fun _ => .start) target.marks [] target := by
  intro cursor others hshows
  rw [jumpTarget_apply]
  unfold JumpTarget.marks at hshows
  -- the number of a line, or a name behind an asterisk
  split at hshows
  · rw [Mark.faces_digits] at hshows
    obtain ⟨hkind, hliteral, hrest⟩ := hshows.peek
    refine ⟨⟨cursor.peek.literal, cursor.peek.loc⟩, cursor.advance, ?_, ?_, ?_⟩
    · rw [if_neg (by rw [hkind]; decide), bind_eq_ok]
      exact ⟨_, _, expect_eq_ok.2 ⟨hkind, rfl, rfl⟩, rfl⟩
    · rw [hliteral]
      rfl
    · exact .of_moves (drift_moves.advance _) hrest.eq_of_nil
  · rw [Mark.faces_symbol, Mark.faces_name] at hshows
    obtain ⟨hkind, -, hname⟩ := hshows.peek
    obtain ⟨hident, hliteral, hrest⟩ := hname.peek
    refine ⟨⟨cursor.advance.peek.literal, cursor.peek.loc⟩, cursor.advance.advance, ?_, ?_, ?_⟩
    · rw [if_pos hkind, bind_eq_ok]
      exact ⟨_, _, expect_eq_ok.2 ⟨hident, rfl, rfl⟩, rfl⟩
    · rw [hliteral]
      rfl
    · exact .of_moves (drift_moves.trans (drift_moves.advance _) (drift_moves.advance _))
        hrest.eq_of_nil

/-- The marks of a size are read as the size. -/
theorem arraySize_finds {size : IntLit} (h : size.isSpellable = true) :
    FindsItem arraySize (·.relocate fun _ => .start) size.marks [] size := by
  intro cursor others hshows
  rw [IntLit.marks, Mark.faces_digits] at hshows
  obtain ⟨hkind, hliteral, hrest⟩ := hshows.peek
  refine ⟨⟨size.value, cursor.peek.literal, cursor.peek.loc⟩, cursor.advance, ?_, ?_, ?_⟩
  · rw [arraySize, bind_eq_ok]
    refine ⟨_, _, expect_eq_ok.2 ⟨hkind, rfl, rfl⟩, ?_⟩
    rw [integer_apply, current_advance, hliteral, integerValue?_of_isSpellable h]
  · rw [hliteral]
    rfl
  · exact .of_moves (drift_moves.advance _) hrest.eq_of_nil

/-- Once an array is declared its name is that of an array, and nothing is wrong. -/
theorem reaches_declare {last : Cursor} (h : Reaches cursor [] others last) (name : String)
    (loc place : Location) (dimensions : Nat) :
    Reaches cursor [(name, place)] others (last.declare name loc dimensions) where
  rest := h.rest
  isArray := by
    funext other
    have hlast : last.isArray other = cursor.isArray other := by
      rw [h.isArray, Declarations.addedTo_nil]
    rw [← has_arrays, Declarations.has] at hlast
    -- the new entry comes first in the table, and all others are found behind it
    rw [← has_arrays, arrays_declare, Declarations.has, List.lookup_cons, Declarations.addedTo,
      ← hlast]
    by_cases hname : other = name
    · simp [hname]
    · simp [beq_eq_false_iff_ne.2 hname, beq_eq_false_iff_ne.2 (Ne.symm hname)]
  diagnostics := by
    rw [← h.diagnostics]
    unfold Cursor.declare
    split <;> rfl

/-- The marks of a declaration are read as it, and declare the array. -/
theorem arrayDecl_finds {array : ArrayDecl} (h : array.isSpellable = true) :
    FindsItem arrayDecl (·.relocate fun _ => .start) array.marks [array.entry] array := by
  intro cursor others hshows
  simp only [ArrayDecl.isSpellable, Bool.and_eq_true, Bool.not_eq_true', List.isEmpty_eq_false_iff,
    List.all_eq_true] at h
  obtain ⟨⟨-, hne⟩, hsizes⟩ := h
  rw [ArrayDecl.marks, Mark.faces_name, Mark.faces_symbol, Mark.faces_append] at hshows
  obtain ⟨hkind, hliteral, hparen⟩ := hshows.peek
  obtain ⟨hopen, -, hlist⟩ := hparen.peek
  obtain ⟨middle, hlist, hclose⟩ := hlist.exists_of_append
  obtain ⟨sizes, last, hrun, hsame, hreaches⟩ := exists_commaList
    (arraySize_keeps growth_leads.toDrift) (fun size hsize => arraySize_finds (hsizes size hsize))
    hne hlist (by rw [hclose.firstKind_eq]; decide)
  -- the array is declared once its parenthesis is closed
  rw [← hreaches.rest] at hclose
  obtain ⟨hrparen, -, hrest⟩ := hclose.peek
  refine ⟨⟨cursor.peek.literal, sizes, cursor.peek.loc⟩,
    last.advance.declare cursor.peek.literal cursor.peek.loc sizes.length, ?_, ?_, ?_⟩
  · simp only [arrayDecl, bind_eq_ok, expect_eq_ok]
    exact ⟨_, _, ⟨hkind, rfl, rfl⟩, _, _, ⟨hopen, rfl, rfl⟩, _, _, hrun, _, _, ⟨hrparen, rfl, rfl⟩,
      (), _, rfl, rfl⟩
  · simp only [ArrayDecl.relocate, hsame, hliteral]
  · rw [List.flatMap_eq_nil_iff.2 fun _ _ => rfl] at hreaches
    rw [hliteral]
    refine reaches_declare (.of_move (drift_moves.trans (drift_moves.advance _)
      (drift_moves.advance _)) ?_) _ _ _ _
    exact hreaches.move (drift_moves.advance _) hrest.eq_of_nil

/-! ## Expressions in statements -/

/-- Whether a kind of token leaves alone an expression before it. -/
def closesExpr (kind : Token.Kind) : Bool :=
  kind != .ident && kind != .num && (extensionPower? kind).isNone

/-- A token that goes on with no expression closes the one before it. -/
theorem closes_of_firstKind {bound : Nat} {tokens : List Token}
    (h : closesExpr (firstKind tokens) = true) : Closes bound tokens := by
  simp only [closesExpr, Bool.and_eq_true, bne_iff_ne, Option.isNone_iff_eq_none] at h
  intro token htoken
  rw [firstKind, htoken] at h
  refine ⟨h.1.1, h.1.2, fun power hpower => ?_⟩
  cases h.2.symm.trans hpower

/-- An expression of a statement, behind the current token. -/
theorem exists_nextExpression {declared : String → Bool} {e : Expr}
    (h : e.isSpellable declared = true) (hfits : e.FitsIn levels)
    (harrays : cursor.isArray = declared)
    (hshows : Shows (Mark.faces (e.marks gap)) cursor.rest others)
    (hothers : closesExpr (firstKind others) = true) :
    ∃ value last, nextExpression (expression levels) openPower cursor = .ok value last ∧
      value.unplaced = e.unplaced ∧ Moves cursor last ∧ last.rest = others := by
  cases levels with
  | zero => exact absurd hfits (Nat.not_succ_le_zero _)
  | succ levels =>
    obtain ⟨value, last, hrun, hfinds⟩ := (yields_of_isSpellable gap h
      (Nat.le_of_succ_le_succ hfits)).next harrays hshows (closes_of_firstKind hothers)
    exact ⟨value, last, hrun, hfinds.same, hfinds.moves, hfinds.rest⟩

/-! ## Statements in which no others stand -/

/-- The parser finds the statement from the current token on. It comes to the others, past a colon
in front of them. -/
def FindsStatement (levels : Nat) (cursor : Cursor) (statement : Statement)
    (others : List Token) : Prop :=
  ∃ found last, Grammar.statement levels cursor = (some found, last) ∧
    found.unplaced = statement.unplaced ∧
    Reaches cursor statement.declarations (afterSeparator others) last

/-- A statement is found if its rule finds it and the rest of the tokens is reached. -/
theorem FindsStatement.of_rule {x : Parse Statement} {statement : Statement} {last : Cursor}
    (found : Statement)
    (hrule : statementRule (expression levels) (Grammar.statement levels) cursor =
      (some <$> x) cursor)
    (hrun : x cursor = .ok found last) (hsame : found.unplaced = statement.unplaced)
    (hreaches : Reaches cursor statement.declarations (afterSeparator others) last) :
    FindsStatement (levels + 1) cursor statement others := by
  refine ⟨found, last.note (.parsed found.loc), ?_, hsame, hreaches.note rfl⟩
  rw [Grammar.statement, recover, hrule, map_eq_ok.2 ⟨found, hrun, rfl⟩]

/-- A line number is found again unless data or a colon comes next. -/
theorem findsStatement_lineNumber {name : String} {loc : Location}
    (hshows : Shows (Mark.faces ((Statement.lineNumber name none loc).marks gap Mark.colon))
      cursor.tokens others)
    (hdata : firstKind others ≠ .word .data) (hcolon : firstKind others ≠ .sym .colon) :
    FindsStatement (levels + 1) cursor (.lineNumber name none loc) others := by
  rw [Statement.marks, Mark.faces_line] at hshows
  obtain ⟨hkind, hliteral, hrest⟩ := hshows.current
  rw [← hrest.eq_of_nil, ← cursor.peek_kind_eq] at hdata
  refine ⟨_, _, statement_lineNumber hkind hdata, ?_, ?_⟩
  · rw [hliteral]
    rfl
  · rw [afterSeparator_of_ne hcolon, ← hrest.eq_of_nil]
    exact (Reaches.of_moves (drift_moves.refl cursor) rfl).note rfl

/-- A line with data is found again, with its payload. -/
theorem findsStatement_dataLine {name : String} {data : DataItem} {loc : Location}
    (hname : data.name = name)
    (hshows : Shows (Mark.faces ((Statement.lineNumber name (some data) loc).marks gap Mark.colon))
      cursor.tokens others) :
    FindsStatement (levels + 1) cursor (.lineNumber name (some data) loc) others := by
  rw [Statement.marks, Mark.faces_line, Mark.faces_space, Mark.faces_data] at hshows
  obtain ⟨hkind, hliteral, hdata⟩ := hshows.current
  obtain ⟨hdata, hpayload, hrest⟩ := hdata.peek
  have hreaches := Reaches.of_moves (drift_moves.advance cursor) hrest.eq_of_nil
  refine .of_rule
    (.lineNumber name (some ⟨name, cursor.peek.literal, cursor.peek.loc⟩) cursor.current.loc)
    (by rw [statementRule_apply, hkind]) ?_ ?_ hreaches.skipSeparator
  · -- `DATA` comes next, so its payload is taken in with the number
    simp only [lineNumber, bind_apply, current_apply, peek_apply]
    rw [if_pos hdata]
    simp only [bind_apply, advance_apply, skipSeparator_apply, pure_apply, hliteral]
  · rw [hpayload, ← hname]
    rfl

/-- A label is found again behind its asterisk. -/
theorem findsStatement_label {name : String} {loc : Location}
    (hshows : Shows (Mark.faces ((Statement.label name loc).marks gap Mark.colon))
      cursor.tokens others) :
    FindsStatement (levels + 1) cursor (.label name loc) others := by
  rw [Statement.marks, Mark.faces_symbol, Mark.faces_name] at hshows
  obtain ⟨hkind, -, hname⟩ := hshows.current
  obtain ⟨hident, hliteral, hrest⟩ := hname.peek
  have hreaches := Reaches.of_moves (drift_moves.advance cursor) hrest.eq_of_nil
  refine .of_rule (.label name cursor.current.loc)
    (by rw [statementRule_apply, hkind]) ?_ ?_ hreaches.skipSeparator
  · simp only [label, bind_eq_ok, current_apply, expect_eq_ok, skipSeparator_apply]
    refine ⟨_, _, rfl, _, _, ⟨hident, rfl, rfl⟩, (), _, rfl, ?_⟩
    rw [hliteral]
    rfl
  · rfl

/-- A `DIM` is found again if no comma comes next. -/
theorem findsStatement_dim {declared : String → Bool} {arrays : List ArrayDecl} {loc : Location}
    (h : (Statement.dim arrays loc).isSpellable declared = true)
    (hshows : Shows (Mark.faces ((Statement.dim arrays loc).marks gap Mark.colon))
      cursor.tokens others) (hothers : firstKind others ≠ .sym .comma) :
    FindsStatement (levels + 1) cursor (.dim arrays loc) others := by
  simp only [Statement.isSpellable, Bool.and_eq_true, Bool.not_eq_true', List.isEmpty_eq_false_iff,
    List.all_eq_true] at h
  rw [Statement.marks, Mark.faces_keyword, Mark.faces_space] at hshows
  obtain ⟨hkind, -, hlist⟩ := hshows.current
  -- each item is a declaration, and what comes behind the last one is no comma
  obtain ⟨found, last, hrun, hsame, hreaches⟩ := exists_commaList (arrayDecl_keeps growth_leads)
    (fun array harray => arrayDecl_finds (h.2 array harray)) h.1 hlist hothers
  rw [← List.map_eq_flatMap] at hreaches
  refine .of_rule (.dim found cursor.current.loc)
    (by rw [statementRule_apply, hkind]) ?_ ?_ hreaches.skipSeparator
  · simp only [dim, bind_eq_ok, current_apply, skipSeparator_apply]
    exact ⟨_, _, rfl, _, _, hrun, (), _, rfl, rfl⟩
  · exact congrArg (Statement.dim · .start) hsame

/-- A statement that is a word and the label to jump to. -/
theorem findsStatement_jump {word : Keyword} {target : JumpTarget} {loc : Location}
    (make : JumpTarget → Location → Statement)
    (hrule : cursor.current.kind = .word word →
      statementRule (expression levels) (Grammar.statement levels) cursor =
        (some <$> do
          let token ← current
          let target ← jumpTarget
          skipSeparator
          return make target token.loc) cursor)
    (hunplaced : ∀ target loc,
      (make target loc).unplaced = make (target.relocate fun _ => .start) .start)
    (hdeclarations : (make target loc).declarations = [])
    (hshows : Shows (Mark.faces (.keyword word :: .space :: target.marks)) cursor.tokens others) :
    FindsStatement (levels + 1) cursor (make target loc) others := by
  rw [Mark.faces_keyword, Mark.faces_space] at hshows
  obtain ⟨hkind, -, htarget⟩ := hshows.current
  obtain ⟨found, last, hrun, hsame, hreaches⟩ := jumpTarget_finds target cursor others htarget
  refine .of_rule (make found cursor.current.loc) (hrule hkind) ?_ ?_
    (hdeclarations ▸ hreaches.skipSeparator)
  · simp only [bind_eq_ok, current_apply, skipSeparator_apply]
    exact ⟨_, _, rfl, _, _, hrun, (), _, rfl, rfl⟩
  · rw [hunplaced, hunplaced]
    exact congrArg (make · .start) hsame

/-- A `RETURN` is found again. -/
theorem findsStatement_ret {loc : Location}
    (hshows : Shows (Mark.faces ((Statement.ret loc).marks gap Mark.colon)) cursor.tokens others) :
    FindsStatement (levels + 1) cursor (.ret loc) others := by
  rw [Statement.marks, Mark.faces_keyword] at hshows
  obtain ⟨hkind, -, hrest⟩ := hshows.current
  have hreaches := Reaches.of_moves (drift_moves.refl cursor) hrest.eq_of_nil
  refine .of_rule (.ret cursor.current.loc)
    (by rw [statementRule_apply, hkind]) ?_ rfl hreaches.skipSeparator
  rfl

/-- An `ON` is found again with all its targets if no comma comes next. -/
theorem findsStatement_on {declared : String → Bool} {value : Expr} {kind : JumpKind}
    {targets : List JumpTarget} {loc : Location}
    (h : (Statement.on value kind targets loc).isSpellable declared = true)
    (hfits : value.FitsIn levels) (harrays : cursor.isArray = declared)
    (hshows : Shows (Mark.faces ((Statement.on value kind targets loc).marks gap Mark.colon))
      cursor.tokens others) (hothers : firstKind others ≠ .sym .comma) :
    FindsStatement (levels + 1) cursor (.on value kind targets loc) others := by
  simp only [Statement.isSpellable, Bool.and_eq_true, Bool.not_eq_true',
    List.isEmpty_eq_false_iff] at h
  obtain ⟨⟨hvalue, hne⟩, -⟩ := h
  rw [Statement.marks, Mark.faces_keyword, Mark.faces_space, Mark.faces_append, Mark.faces_space,
    Mark.faces_keyword, Mark.faces_space] at hshows
  -- the value ends at `GOTO` or `GOSUB`, and the labels stand behind that
  obtain ⟨hkind, -, hrest⟩ := hshows.current
  obtain ⟨middle, hmarks, hword⟩ := hrest.exists_of_append
  have hcloses : closesExpr (firstKind middle) = true := by
    rw [hword.firstKind_eq]
    cases kind <;> decide
  obtain ⟨first, next, hrun, hsame, hmoves, rfl⟩ :=
    exists_nextExpression hvalue hfits harrays hmarks hcloses
  obtain ⟨hjump, -, hlist⟩ := hword.peek
  obtain ⟨found, last, hruns, hsames, hreaches⟩ :=
    exists_commaList (jumpTarget_keeps growth_leads.toDrift)
      (fun target _ => jumpTarget_finds target) hne hlist hothers
  rw [List.flatMap_eq_nil_iff.2 fun _ _ => rfl] at hreaches
  have hall : Reaches cursor [] others last :=
    .of_move (drift_moves.trans hmoves (drift_moves.advance _)) hreaches
  refine .of_rule (.on first kind found cursor.current.loc)
    (by rw [statementRule_apply, hkind]) ?_ ?_ hall.skipSeparator
  · simp only [on, bind_eq_ok, current_apply, skipSeparator_apply, jumpKind_eq_ok]
    exact ⟨_, _, rfl, _, _, hrun, _, _, ⟨hjump, rfl⟩, _, _, hruns, (), _, rfl, rfl⟩
  · exact congrArg₂ (Statement.on · kind · .start) hsame hsames

/-- The value of an assignment, the token before the equals sign being the current one. -/
theorem exists_assignTo {declared : String → Bool} {value : Expr} {equals : String}
    (target : Token) (indices : List Expr) (h : value.isSpellable declared = true)
    (hfits : value.FitsIn levels) (harrays : cursor.isArray = declared)
    (hshows : Shows ((.sym .eq, equals) :: Mark.faces (value.marks gap)) cursor.rest others)
    (hothers : closesExpr (firstKind others) = true) :
    ∃ found last, assignTo (expression levels) target indices cursor =
        .ok (.assign target.literal indices found target.loc) last ∧
      found.unplaced = value.unplaced ∧ Reaches cursor [] (afterSeparator others) last := by
  obtain ⟨hequals, -, hvalue⟩ := hshows.peek
  have harrays' : cursor.advance.isArray = declared := harrays
  obtain ⟨found, last, hrun, hsame, hmoves, hrest⟩ :=
    exists_nextExpression h hfits harrays' hvalue hothers
  have hreaches := Reaches.of_moves (drift_moves.trans (drift_moves.advance _) hmoves) hrest
  refine ⟨found, last.skipSeparator, ?_, hsame, hreaches.skipSeparator⟩
  simp only [assignTo, bind_eq_ok, expect_eq_ok, skipSeparator_apply]
  exact ⟨_, _, ⟨hequals, rfl, rfl⟩, _, _, hrun, (), _, rfl, rfl⟩

/-- An assignment is found again if what comes next goes on with no expression. -/
theorem findsStatement_assign {declared : String → Bool} {name : String} {indices : List Expr}
    {value : Expr} {loc : Location}
    (h : (Statement.assign name indices value loc).isSpellable declared = true)
    (hname : (Expr.var name indices loc).FitsIn (levels + 1)) (hfits : value.FitsIn levels)
    (harrays : cursor.isArray = declared)
    (hshows : Shows (Mark.faces ((Statement.assign name indices value loc).marks gap Mark.colon))
      cursor.tokens others) (hothers : closesExpr (firstKind others) = true) :
    FindsStatement (levels + 1) cursor (.assign name indices value loc) others := by
  simp only [Statement.isSpellable, Expr.isSpellable, Bool.and_eq_true, Bool.or_eq_true,
    List.isEmpty_iff] at h
  obtain ⟨⟨⟨-, hdeclared⟩, hindices⟩, hvalue⟩ := h
  rw [Statement.marks, Mark.faces_append, Mark.faces_space, Mark.faces_symbol,
    Mark.faces_space, Expr.marks, Mark.faces_name, List.cons_append] at hshows
  obtain ⟨hkind, hliteral, hrest⟩ := hshows.current
  by_cases hne : indices = []
  · -- a variable, with the equals sign directly behind it
    subst hne
    obtain ⟨found, last, hrun, hsame, hreaches⟩ :=
      exists_assignTo cursor.current [] hvalue hfits harrays hrest hothers
    refine .of_rule (.assign name [] found cursor.current.loc)
      (by rw [statementRule_apply, hkind]) ?_ ?_ hreaches
    · rw [namedStatement_apply, if_pos hrest.peek.1, hrun, hliteral]
    · rw [Statement.unplaced_assign, Statement.unplaced_assign, hsame]
  · -- an element of an array, with its subscripts in parentheses
    have hwritten e he := written_of_isSpellable declared gap e
      (Expr.isSpellable_of_mem hindices e he)
    obtain ⟨fewer, rfl, hyields⟩ :=
      Written.exists_yields hne hwritten (Nat.le_of_succ_le_succ hname)
    rw [if_neg (by simpa using hne), List.cons_append, Mark.faces_symbol, List.cons_append] at hrest
    obtain ⟨hparen, -, hlist⟩ := hrest.peek
    obtain ⟨middle, hlist, hequals⟩ := hlist.exists_of_append
    have harrays' : cursor.advance.isArray = declared := harrays
    obtain ⟨subscripts, next, hsubscripts, hmoves, rfl, hsames⟩ :=
      exists_subscripts hne hyields harrays' hlist
    have hmoves' := drift_moves.trans (drift_moves.advance cursor) hmoves
    obtain ⟨found, last, hrun, hsame, hreaches⟩ := exists_assignTo cursor.current subscripts hvalue
      hfits (hmoves'.isArray.trans harrays) hequals hothers
    refine .of_rule (.assign name subscripts found cursor.current.loc)
      (by rw [statementRule_apply, hkind]) ?_ ?_ (.of_move hmoves' hreaches)
    · have harray : cursor.isArray cursor.current.literal = true := by
        rw [harrays, hliteral]
        exact hdeclared.resolve_left hne
      rw [namedStatement_apply, if_neg (by rw [hparen]; decide), if_pos harray]
      simp only [assignElement, bind_eq_ok, current_apply, expect_eq_ok]
      rw [hliteral] at hrun
      exact ⟨_, _, rfl, _, _, ⟨hparen, rfl, rfl⟩, _, _, hsubscripts, hrun⟩
    · rw [Statement.unplaced_assign, Statement.unplaced_assign, hsame, hsames]

/-- A name that is not that of an array and has no equals sign behind it calls a function, with the
arguments that the parser finds there. -/
theorem findsStatement_of_arguments {function : String} {arguments found : List Expr}
    {loc : Location} {last : Cursor} (hkind : cursor.current.kind = .ident)
    (hliteral : cursor.current.literal = function) (harray : cursor.isArray function = false)
    (hequals : cursor.peek.kind ≠ .sym .eq)
    (hrun : (if cursor.peek.kind.isTerminator then pure []
      else if cursor.peek.kind = .sym .lparen then
        advance >>= fun _ => Grammar.arguments (expression levels)
      else expressionList (expression levels)) cursor = .ok found last)
    (hsame : found.map Expr.unplaced = arguments.map Expr.unplaced)
    (hreaches : Reaches cursor [] others last) :
    FindsStatement (levels + 1) cursor (.call function arguments loc) others := by
  refine .of_rule (.call function found cursor.current.loc)
    (by rw [statementRule_apply, hkind]) ?_ ?_ hreaches.skipSeparator
  · rw [← hliteral] at harray
    rw [namedStatement_apply, if_neg hequals, harray, if_neg Bool.false_ne_true, ← hliteral]
    simp only [call, bind_eq_ok, current_apply, peek_apply]
    refine ⟨_, _, rfl, _, _, rfl, ?_⟩
    -- no arguments, arguments in parentheses, and bare arguments
    split at hrun
    next hend =>
      rw [if_pos hend]
      exact bind_eq_ok.2 ⟨found, last, hrun, rfl⟩
    next hend =>
      rw [if_neg hend]
      split at hrun
      next hparen =>
        rw [if_pos hparen]
        obtain ⟨token, middle, hadvance, hrun⟩ := bind_eq_ok.1 hrun
        exact bind_eq_ok.2 ⟨token, middle, hadvance, bind_eq_ok.2 ⟨found, last, hrun, rfl⟩⟩
      next hparen =>
        rw [if_neg hparen]
        exact bind_eq_ok.2 ⟨found, last, hrun, rfl⟩
  · rw [Statement.unplaced_call, Statement.unplaced_call, hsame]

/-- A call is found again with its arguments in parentheses. -/
theorem findsStatement_call {declared : String → Bool} {function : String} {arguments : List Expr}
    {loc : Location} (h : (Statement.call function arguments loc).isSpellable declared = true)
    (hfits : (Expr.call function arguments loc).FitsIn (levels + 1))
    (harrays : cursor.isArray = declared)
    (hshows : Shows (Mark.faces ((Statement.call function arguments loc).marks gap Mark.colon))
      cursor.tokens others) :
    FindsStatement (levels + 1) cursor (.call function arguments loc) others := by
  simp only [Statement.isSpellable, Expr.isSpellable, Bool.and_eq_true, Bool.not_eq_true'] at h
  obtain ⟨⟨-, hdeclared⟩, harguments⟩ := h
  have hwritten e he := written_of_isSpellable declared gap e
    (Expr.isSpellable_of_mem harguments e he)
  rw [Statement.marks, Expr.marks, List.cons_append, Mark.faces_name, List.cons_append,
    Mark.faces_symbol] at hshows
  obtain ⟨hkind, hliteral, hrest⟩ := hshows.current
  obtain ⟨hparen, -, hlist⟩ := hrest.peek
  -- the parenthesis closes the arguments, so nothing is asked of what follows
  have harrays' : cursor.advance.isArray = declared := harrays
  obtain ⟨found, last, hrun, hmoves, hothers, hsame⟩ :=
    Written.exists_arguments hwritten (Nat.le_of_succ_le_succ hfits) harrays' hlist
  refine findsStatement_of_arguments hkind hliteral (by rw [harrays, hdeclared])
    (by rw [hparen]; decide) ?_ hsame
    (.of_moves (drift_moves.trans (drift_moves.advance cursor) hmoves) hothers)
  rw [if_neg (by rw [hparen]; decide), if_pos hparen]
  exact bind_eq_ok.2 ⟨_, _, advance_apply cursor, hrun⟩

end Grammar

end LineBasic
