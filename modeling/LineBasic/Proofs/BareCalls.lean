import LineBasic.Proofs.Nesting
import LineBasic.Proofs.Spelling.Program.Parse

/-!
# Calls without parentheses

The arguments of a call that is a statement stand in parentheses, `F(a, b)`, or bare, `F a, b`. The
parser tells the two forms apart by the token behind the name. So the bare form is the same call as
the other one if and only if its arguments do not start with a parenthesis (`bareCall_iff`).

They do where the first operand in the text is a group (`Expr.firstGroup?`). The parser takes that
group for the whole list of arguments, and goes on behind it as behind a statement
(`exists_program_bareLine`). In `F (A + B) * C` what it finds there is the label `*C`, so that
nothing even seems to be wrong.
-/

namespace LineBasic

open Cursor Parse

/-! ## Lines with a call -/

/-- A numbered line that calls a function with arguments in parentheses. -/
def callLine (gap : Nat) (number function : String) (arguments : List Expr) : List UInt8 :=
  Mark.text (.token (.ofLineNumber number) :: .space ::
    (Expr.call function arguments .start).marks gap)

/-- A numbered line that calls a function with bare arguments. -/
def bareLine (gap : Nat) (number function : String) (arguments : List Expr) : List UInt8 :=
  Mark.text (.token (.ofLineNumber number) :: .space :: .token (.ofName function) :: .space ::
    Expr.listMarks gap arguments)

/-- A line below others, of which there may be none. -/
def below (left line : List UInt8) : List UInt8 :=
  if left = [] then line else left ++ 0x0A :: line

/-- Nothing is wrong with the line below the others, and it holds the call and no other
statement. -/
def HoldsCall (left line : List UInt8) (number function : String) (arguments : List Expr) : Prop :=
  (parse (below left line)).isClean = true ∧
    ∃ found numberLoc loc, found.map Expr.unplaced = arguments.map Expr.unplaced ∧
      (parse (below left line)).program =
        (parse left).program ++ [.lineNumber number none numberLoc, .call function found loc]

/-! ## The first token of an expression -/

namespace Expr

variable {e content : Expr} {gap : Nat}

/-- The operand in parentheses that the text of an expression starts with, if it does. -/
def firstGroup? : Expr → Option Expr
  | .binary op left _ _ => if left.isWeaker op.power then some left else left.firstGroup?
  | _ => none

/-- A first argument with a group in front is spelled with its parentheses in front. -/
theorem exists_marks_of_firstGroup? (gap : Nat) (h : e.firstGroup? = some content) :
    ∃ tail, e.marks gap = Mark.group gap true (content.marks gap) ++ tail := by
  fun_induction firstGroup? e with
  | case1 op left right loc hweak =>
    cases h
    rw [marks, hweak]
    exact ⟨_, rfl⟩
  | case2 op left right loc hplain ih =>
    -- the left operand stands without parentheses, so the text starts as its text does
    obtain ⟨tail, htail⟩ := ih h
    rw [marks, eq_false_of_ne_true hplain, Mark.group, if_neg Bool.false_ne_true, htail,
      List.append_assoc]
    exact ⟨_, rfl⟩
  | case3 => cases h

/-- A group is a level of its own. -/
theorem levels_of_firstGroup? (h : e.firstGroup? = some content) :
    content.levels + 1 ≤ e.levels := by
  fun_induction firstGroup? e with
  | case1 op left right loc hweak =>
    cases h
    rw [levels, groupLevels, if_pos hweak]
    exact Nat.le_max_left _ _
  | case2 op left right loc hplain ih =>
    rw [levels, groupLevels, if_neg hplain]
    exact Nat.le_trans (ih h) (Nat.le_max_left _ _)
  | case3 => cases h

/-- The group is less than the whole. -/
theorem height_of_firstGroup? (h : e.firstGroup? = some content) :
    content.height 1 < e.height 1 := by
  fun_induction firstGroup? e with
  | case1 op left right loc hweak =>
    cases h
    exact Nat.le_max_left _ _
  | case2 op left right loc hplain ih =>
    exact Nat.lt_of_lt_of_le (Nat.lt_succ_of_lt (ih h)) (Nat.le_max_left _ _)
  | case3 => cases h

/-- The group in front can be spelled if the argument can. -/
theorem isSpellable_of_firstGroup? {declared : String → Bool} (h : e.firstGroup? = some content)
    (he : e.isSpellable declared = true) : content.isSpellable declared = true := by
  fun_induction firstGroup? e with
  | case1 op left right loc hweak =>
    cases h
    rw [isSpellable, Bool.and_eq_true] at he
    exact he.1
  | case2 op left right loc hplain ih =>
    rw [isSpellable, Bool.and_eq_true] at he
    exact ih h he.1
  | case3 => cases h

/-- Without a group there the text starts with an operand or with an operator before one. -/
theorem exists_marks_of_firstGroup?_eq_none (gap : Nat) (h : e.firstGroup? = none) :
    ∃ lexeme tail, e.marks gap = .token lexeme :: tail ∧
      lexeme.kind.isTerminator = false ∧ lexeme.kind ≠ .sym .lparen ∧ lexeme.kind ≠ .sym .eq := by
  induction e using Expr.induction with
  | var name indices loc | int literal | str text loc =>
    exact ⟨_, _, rfl, rfl, Token.Kind.noConfusion, Token.Kind.noConfusion⟩
  | unary op operand loc => exact ⟨_, _, rfl, by cases op <;> decide⟩
  | binary op left right loc ih =>
    -- an operation starts as its left side does, which has no parentheses of its own here
    rw [firstGroup?] at h
    split at h
    next => cases h
    next hplain =>
      obtain ⟨lexeme, tail, hmarks, hkind⟩ := ih h
      rw [marks, eq_false_of_ne_true hplain, Mark.group, if_neg Bool.false_ne_true, hmarks,
        List.cons_append]
      exact ⟨lexeme, _, rfl, hkind⟩
  | call function arguments loc =>
    exact ⟨_, _, rfl, rfl, Token.Kind.noConfusion, Token.Kind.noConfusion⟩

/-- A list is written from its first member on. -/
theorem exists_listMarks_cons (gap : Nat) (head : Expr) (tail : List Expr) :
    ∃ rest, listMarks gap (head :: tail) = head.marks gap ++ rest := by
  cases tail with
  | nil => exact ⟨[], (List.append_nil _).symm⟩
  | cons next tail => exact ⟨_, rfl⟩

/-- The text of a list starts with a parenthesis if and only if that of its first member starts
with a group. -/
theorem head?_listMarks {head : Expr} {tail : List Expr} :
    (listMarks gap (head :: tail)).head? = some (.symbol .lparen) ↔
      ∃ content, head.firstGroup? = some content := by
  obtain ⟨rest, hrest⟩ := exists_listMarks_cons gap head tail
  rw [hrest]
  -- with no group in front, the list starts with a lexeme that is no parenthesis
  cases hgroup : head.firstGroup? with
  | none =>
    obtain ⟨lexeme, marks, hmarks, -, hparen, -⟩ := exists_marks_of_firstGroup?_eq_none gap hgroup
    refine iff_of_false (fun hhead => hparen ?_) fun ⟨content, hcontent⟩ => by cases hcontent
    rw [hmarks] at hhead
    cases hhead
    rfl
  | some content =>
    obtain ⟨marks, hmarks⟩ := exists_marks_of_firstGroup? gap hgroup
    refine iff_of_true ?_ ⟨content, rfl⟩
    rw [hmarks]
    rfl

end Expr

/-! ## Scanning -/

section Scanning

variable {declared : String → Bool} {number function : String} {arguments : List Expr}

/-- The tokens of a call with parentheses are the faces of its marks. -/
theorem tokenizesTo_callLine (gap : Nat) (hnumber : isDigits number = true)
    (h : (Expr.call function arguments .start).isSpellable declared = true) :
    TokenizesTo (callLine gap number function arguments)
      ((.lineNo, number) :: Mark.faces ((Expr.call function arguments .start).marks gap)) := by
  have hmarks : Scans _ _ [] := Expr.marks_scanned gap _ h [] .nil
  rw [List.append_nil] at hmarks
  exact ((Scans.space _).trans hmarks).tokenizesTo_line hnumber (.cons (by decide))

/-- The tokens of a bare call are the name and the faces of its arguments. -/
theorem tokenizesTo_bareLine (gap : Nat) (hnumber : isDigits number = true)
    (h : (Expr.call function arguments .start).isSpellable declared = true) :
    TokenizesTo (bareLine gap number function arguments)
      ((.lineNo, number) :: (.ident, function) :: Mark.faces (Expr.listMarks gap arguments)) := by
  simp only [Expr.isSpellable, Bool.and_eq_true] at h
  obtain ⟨⟨hname, -⟩, harguments⟩ := h
  have hmarks : Scans _ _ [] := Expr.listMarks_scanned (fun e he =>
    e.marks_scanned gap (Expr.isSpellable_of_mem harguments e he)) [] .nil
  rw [List.append_nil] at hmarks
  have hspace (bytes : List UInt8) : Delimits (0x20 :: bytes) := .cons (by decide)
  have hscan := (Scans.space _).trans ((Scans.token (Lexeme.first?_ofName false hname (hspace _))
    Token.Kind.noConfusion).trans ((Scans.space _).trans hmarks))
  exact hscan.tokenizesTo_line hnumber (hspace _)

end Scanning

/-! ## What the parser finds -/

namespace Grammar

variable {declared : String → Bool} {function : String} {arguments : List Expr} {loc : Location}
  {cursor : Cursor} {others : List Token} {levels gap : Nat}

/-- The parser finds a call with bare arguments, if these do not start with a group. -/
theorem findsStatement_bareCall
    (h : (Expr.call function arguments loc).isSpellable declared = true)
    (hfits : (Expr.call function arguments loc).FitsIn (levels + 1)) (hne : arguments ≠ [])
    (hgroup : (Expr.listMarks gap arguments).head? ≠ some (.symbol .lparen))
    (harrays : cursor.isArray = declared)
    (hshows : Shows ((.ident, function) :: Mark.faces (Expr.listMarks gap arguments))
      cursor.tokens others)
    (hothers : closesExpr (firstKind others) = true) (hcomma : firstKind others ≠ .sym .comma) :
    FindsStatement (levels + 1) cursor (.call function arguments loc) others := by
  simp only [Expr.isSpellable, Bool.and_eq_true, Bool.not_eq_true'] at h
  obtain ⟨⟨-, hdeclared⟩, harguments⟩ := h
  obtain ⟨hkind, hliteral, hlist⟩ := hshows.current
  -- the token behind the name is neither an equals sign nor a parenthesis, nor the end of the call
  obtain ⟨hterminator, hparen, hequals⟩ : cursor.peek.kind.isTerminator = false ∧
      cursor.peek.kind ≠ .sym .lparen ∧ cursor.peek.kind ≠ .sym .eq := by
    obtain ⟨head, tail, rfl⟩ := List.exists_cons_of_ne_nil hne
    have hnone : head.firstGroup? = none := by
      rw [Ne, Expr.head?_listMarks] at hgroup
      exact Option.eq_none_iff_forall_not_mem.2 fun content hcontent => hgroup ⟨content, hcontent⟩
    obtain ⟨rest, hrest⟩ := Expr.exists_listMarks_cons gap head tail
    obtain ⟨lexeme, marks, hmarks, hlexeme⟩ := Expr.exists_marks_of_firstGroup?_eq_none gap hnone
    rw [hrest, hmarks, List.cons_append, Mark.faces_token] at hlist
    rw [hlist.peek.1]
    exact hlexeme
  -- the arguments are items with commas between them
  have hwritten e he := written_of_isSpellable declared gap e
    (Expr.isSpellable_of_mem harguments e he)
  obtain ⟨fewer, rfl, hyields⟩ := Written.exists_yields hne hwritten (Nat.le_of_succ_le_succ hfits)
  obtain ⟨found, last, hrun, hmoves, rfl, hsame⟩ :=
    exists_commaRun hne hyields harrays hlist (closes_of_firstKind hothers)
  -- nothing but what follows ends them
  rw [← last.peek_kind_eq] at hcomma
  have hitem := nextExpression_keeps growth_leads.toDrift
    (expression_keeps growth_leads.toDrift (fewer + 1)) openPower
  refine findsStatement_of_arguments hkind hliteral (by rw [harrays, hdeclared]) hequals ?_ hsame
    (.of_moves hmoves rfl)
  rw [if_neg (by rw [hterminator]; exact Bool.false_ne_true), if_neg hparen]
  exact hrun.commaList hitem hcomma

/-- If the arguments start with a group, the parser finds a call with what is in that group as its
only argument. -/
theorem exists_findsStatement_group {head content : Expr} {tail : List Expr}
    (hgroup : head.firstGroup? = some content)
    (h : (Expr.call function (head :: tail) loc).isSpellable declared = true)
    (hfits : (Expr.call function (head :: tail) loc).FitsIn (levels + 1))
    (harrays : cursor.isArray = declared)
    (hshows : Shows ((.ident, function) :: Mark.faces (Expr.listMarks gap (head :: tail)))
      cursor.tokens others) :
    ∃ rest, FindsStatement (levels + 1) cursor (.call function [content] loc) rest := by
  simp only [Expr.isSpellable, Expr.listIsSpellable, Bool.and_eq_true] at h
  obtain ⟨hname, hhead, -⟩ := h
  have hcontent : (Statement.call function [content] loc).isSpellable declared = true := by
    simp only [Statement.isSpellable, Expr.isSpellable, Expr.listIsSpellable, Bool.and_eq_true]
    exact ⟨hname, Expr.isSpellable_of_firstGroup? hgroup hhead, trivial⟩
  have hlevels : (Expr.call function [content] loc).FitsIn (levels + 1) := by
    have hless := Expr.levels_of_firstGroup? hgroup
    simp only [Expr.FitsIn, Expr.levels, Expr.listLevels] at hfits ⊢
    omega
  -- spaces in the group are no tokens, so it is written like a list of one argument
  obtain ⟨marks, hmarks⟩ := Expr.exists_listMarks_cons gap head tail
  obtain ⟨behind, hbehind⟩ := Expr.exists_marks_of_firstGroup? gap hgroup
  rw [hmarks, hbehind, List.append_assoc, Mark.faces_append, faces_group, ← List.cons_append]
    at hshows
  obtain ⟨rest, hcall, -⟩ := hshows.exists_of_append
  have hcall : Shows (Mark.faces ((Statement.call function [content] loc).marks gap Mark.colon))
      cursor.tokens rest := by
    rw [Statement.marks, Expr.marks, List.cons_append, Mark.faces_name, List.cons_append,
      Mark.faces_symbol, Mark.faces_append, Expr.listMarks]
    exact hcall
  exact ⟨rest, findsStatement_call hcontent hlevels harrays hcall⟩

end Grammar

/-! ## Lines below others -/

section Below

variable {left line : List UInt8} {number function : String} {arguments : List Expr}
  {faces : List (Token.Kind × String)}

/-- The parser on the first token of a line below others. -/
theorem exists_at_line (hleft : (parse left).isClean = true)
    (hline : TokenizesTo line ((.lineNo, number) :: faces)) :
    ∃ cursor : Cursor, Shows ((.lineNo, number) :: faces) cursor.tokens [] ∧
      cursor.isArray = Statement.listDeclares (parse left).program ∧ cursor.diagnostics = [] ∧
      (parse (below left line)).final = (Grammar.steps cursor).2 ∧
      (parse (below left line)).program =
        (parse left).program ++ (Grammar.steps cursor).1.filterMap (·.statement) := by
  by_cases hnil : left = []
  · -- the line is the listing, and no array is declared yet
    subst hnil
    obtain ⟨body, finish, htokens, hfaces⟩ := hline
    obtain ⟨hprogram, hfinal⟩ := parse_of_tokenize htokens
    exact ⟨.start body finish [], ⟨body, (List.append_nil _).symm, hfaces⟩, rfl, rfl, hfinal,
      hprogram⟩
  · -- the lines before it hand on their arrays, and no diagnostics
    obtain ⟨cursor, first, hshows, harrays, hdiagnostics, hfinal, hprogram⟩ :=
      exists_behind_line hline (.inr hleft)
    have hclean : (parse left).diagnostics = [] := List.isEmpty_iff.1 hleft
    rw [hclean] at hdiagnostics
    rw [isArray_final_of_isClean hleft] at harrays
    rw [below, if_neg hnil]
    exact ⟨cursor, hshows, harrays, hdiagnostics, hfinal, hprogram⟩

/-- The parser behind the number of a line below others. -/
theorem exists_behind_number (hleft : (parse left).isClean = true)
    (hline : TokenizesTo line ((.lineNo, number) :: (.ident, function) :: faces)) :
    ∃ (cursor : Cursor) (numberLoc : Location),
      Shows ((.ident, function) :: faces) cursor.tokens [] ∧
      cursor.isArray = Statement.listDeclares (parse left).program ∧ cursor.diagnostics = [] ∧
      (parse (below left line)).diagnostics = (Grammar.steps cursor).2.diagnostics ∧
      (parse (below left line)).program = (parse left).program ++
        .lineNumber number none numberLoc :: (Grammar.steps cursor).1.filterMap (·.statement) := by
  obtain ⟨cursor, hshows, harrays, hdiagnostics, hfinal, hprogram⟩ := exists_at_line hleft hline
  obtain ⟨hkind, hliteral, hrest⟩ := hshows.current
  obtain ⟨middle, htokens, harrays', hdiagnostics', hsteps, hlast⟩ :=
    Grammar.exists_steps_lineNumber hkind (by rw [hrest.peek.1]; decide)
  rw [← htokens] at hrest
  refine ⟨middle, cursor.current.loc, hrest, harrays'.trans harrays,
    hdiagnostics'.trans hdiagnostics, ?_, ?_⟩
  · rw [Listing.diagnostics, hfinal, hlast]
  · rw [hprogram, hsteps, hliteral]

/-- A statement that is a call up to places is a call of the same function. -/
theorem Statement.exists_of_unplaced_eq_call {statement : Statement}
    (h : statement.unplaced = (Statement.call function arguments .start).unplaced) :
    ∃ found loc, statement = .call function found loc ∧
      found.map Expr.unplaced = arguments.map Expr.unplaced := by
  rw [unplaced_call] at h
  cases statement with
  | call name found loc =>
    rw [unplaced_call, call.injEq] at h
    exact ⟨found, loc, by rw [h.1], h.2.1⟩
  | _ => cases h

/-- A line on which the parser finds the call, up to the end of the listing. -/
theorem HoldsCall.of_finds (hleft : (parse left).isClean = true)
    (hline : TokenizesTo line ((.lineNo, number) :: (.ident, function) :: faces))
    (h : ∀ cursor : Cursor, cursor.isArray = Statement.listDeclares (parse left).program →
      Shows ((.ident, function) :: faces) cursor.tokens [] →
      Grammar.FindsStatement maxNesting cursor (.call function arguments .start) []) :
    HoldsCall left line number function arguments := by
  obtain ⟨cursor, numberLoc, hshows, harrays, hclean, hdiagnostics, hprogram⟩ :=
    exists_behind_number hleft hline
  obtain ⟨statement, last, hrun, hsame, hreaches⟩ := h cursor harrays hshows
  obtain ⟨found, loc, rfl, harguments⟩ := Statement.exists_of_unplaced_eq_call hsame
  obtain ⟨hsteps, hlast⟩ :=
    Grammar.steps_of_last (by rw [hshows.current.1]; decide) hrun hreaches.rest
  refine ⟨?_, found, numberLoc, loc, harguments, ?_⟩
  · rw [Listing.isClean, hdiagnostics, hlast, (drift_moves.advance _).diagnostics,
      hreaches.diagnostics, hclean]
    rfl
  · rw [hprogram, hsteps]
    rfl

end Below

section Main

variable (left : List UInt8) (gap : Nat) (number function : String)

/-- If the arguments start with a group, the statement behind the line number is the call with what
is in that group. -/
theorem exists_program_bareLine {head content : Expr} {tail : List Expr}
    (hgroup : head.firstGroup? = some content) (hleft : (parse left).isClean = true)
    (hnumber : isDigits number = true)
    (hcall : (Expr.call function (head :: tail) .start).isSpellable
      (Statement.listDeclares (parse left).program) = true)
    (hlevels : Expr.listLevels (head :: tail) + 1 ≤ maxNesting) :
    ∃ found numberLoc loc rest, found.unplaced = content.unplaced ∧
      (parse (below left (bareLine gap number function (head :: tail)))).program =
        (parse left).program ++
          .lineNumber number none numberLoc :: .call function [found] loc :: rest := by
  obtain ⟨cursor, numberLoc, hshows, harrays, -, -, hprogram⟩ :=
    exists_behind_number hleft (tokenizesTo_bareLine gap hnumber hcall)
  obtain ⟨others, statement, last, hrun, hsame, -⟩ : ∃ others,
      Grammar.FindsStatement maxNesting cursor (.call function [content] .start) others :=
    Grammar.exists_findsStatement_group hgroup hcall hlevels harrays hshows
  obtain ⟨found, loc, rfl, harguments⟩ := Statement.exists_of_unplaced_eq_call hsame
  obtain ⟨argument, rfl, hargument⟩ := List.map_eq_singleton_iff.1 harguments
  have hsteps := (Grammar.steps_of_statement (by rw [hshows.current.1]; decide) hrun).1
  rw [hsteps] at hprogram
  exact ⟨argument, numberLoc, loc, _, hargument, hprogram⟩

/-- Below lines with nothing wrong in them, a call with its arguments in parentheses is what it is.
The same call with its arguments bare is so too, if and only if these do not start with a
parenthesis. -/
theorem bareCall_iff (arguments : List Expr) (hleft : (parse left).isClean = true)
    (hnumber : isDigits number = true)
    (hcall : (Expr.call function arguments .start).isSpellable
      (Statement.listDeclares (parse left).program) = true)
    (hne : arguments ≠ []) (hlevels : Expr.listLevels arguments + 1 ≤ maxNesting) :
    HoldsCall left (callLine gap number function arguments) number function arguments ∧
      (HoldsCall left (bareLine gap number function arguments) number function arguments ↔
        (Expr.listMarks gap arguments).head? ≠ some (.symbol .lparen)) := by
  refine ⟨?_, fun hholds hparen => ?_, fun hgroup => ?_⟩
  · exact .of_finds hleft (tokenizesTo_callLine gap hnumber hcall) fun cursor harrays hshows =>
      Grammar.findsStatement_call hcall hlevels harrays hshows
  · -- the group alone is less than the first argument, so it cannot be the same call
    obtain ⟨head, tail, rfl⟩ := List.exists_cons_of_ne_nil hne
    obtain ⟨content, hcontent⟩ := Expr.head?_listMarks.1 hparen
    obtain ⟨-, found, _, _, hsame, hprogram⟩ := hholds
    obtain ⟨argument, _, _, rest, hargument, hprogram'⟩ :=
      exists_program_bareLine left gap number function hcontent hleft hnumber hcall hlevels
    rw [hprogram', List.append_cancel_left_eq] at hprogram
    cases hprogram
    have hhead : argument.unplaced = head.unplaced := (List.cons.inj hsame).1
    have hless := Expr.height_of_firstGroup? hcontent
    rw [← Expr.height_unplaced content, ← hargument, hhead, Expr.height_unplaced] at hless
    exact Nat.lt_irrefl _ hless
  · exact .of_finds hleft (tokenizesTo_bareLine gap hnumber hcall) fun cursor harrays hshows =>
      Grammar.findsStatement_bareCall hcall hlevels hne hgroup harrays hshows rfl (by decide)

end Main

/-- The theorem at a call that takes an element of an array, the sign of a number and a group which
does not come first. -/
theorem bareCall_iff_element :
    HoldsCall (Utf8.encode "10 DIM A(3)") (Utf8.encode "20 F(A(1) * (B + C), - 2)") "20" "F"
        [.binary .mul (.var "A" [.int ⟨1, "1", .start⟩] .start)
          (.binary .add (.var "B" [] .start) (.var "C" [] .start) .start) .start,
          .unary .neg (.int ⟨2, "2", .start⟩) .start] ∧
      HoldsCall (Utf8.encode "10 DIM A(3)") (Utf8.encode "20 F A(1) * (B + C), - 2") "20" "F"
        [.binary .mul (.var "A" [.int ⟨1, "1", .start⟩] .start)
          (.binary .add (.var "B" [] .start) (.var "C" [] .start) .start) .start,
          .unary .neg (.int ⟨2, "2", .start⟩) .start] := by
  let arguments : List Expr :=
    [.binary .mul (.var "A" [.int ⟨1, "1", .start⟩] .start)
      (.binary .add (.var "B" [] .start) (.var "C" [] .start) .start) .start,
      .unary .neg (.int ⟨2, "2", .start⟩) .start]
  have hcall : Utf8.encode "20 F(A(1) * (B + C), - 2)" = callLine 0 "20" "F" arguments := by
    decide +kernel
  have hbare : Utf8.encode "20 F A(1) * (B + C), - 2" = bareLine 0 "20" "F" arguments := by
    decide +kernel
  have h := bareCall_iff (Utf8.encode "10 DIM A(3)") 0 "20" "F" arguments (by decide +kernel)
    (by decide) (by decide +kernel) (List.cons_ne_nil _ _) (by decide)
  rw [hcall, hbare]
  exact ⟨h.1, h.2.2 (by decide)⟩

/-- The product of a sum, `(A + B) * C`. -/
def productOfSum : Expr :=
  .binary .mul (.binary .add (.var "A" [] .start) (.var "B" [] .start) .start)
    (.var "C" [] .start) .start

/-- Behind the group of a bare product of a sum the parser finds a label. Nothing is wrong with that
line, and it does not hold the call that the line with the product in parentheses holds. -/
theorem bareCall_productOfSum :
    Utf8.encode "10 F (A + B) * C" = bareLine 0 "10" "F" [productOfSum] ∧
      (parse (Utf8.encode "10 F (A + B) * C")).isClean = true ∧
      (parse (Utf8.encode "10 F (A + B) * C")).program =
        [.lineNumber "10" none ⟨1, 1⟩,
          .call "F" [.binary .add (.var "A" [] ⟨1, 7⟩) (.var "B" [] ⟨1, 11⟩) ⟨1, 9⟩] ⟨1, 4⟩,
          .label "C" ⟨1, 14⟩] ∧
      HoldsCall [] (Utf8.encode "10 F((A + B) * C)") "10" "F" [productOfSum] ∧
      ¬HoldsCall [] (Utf8.encode "10 F (A + B) * C") "10" "F" [productOfSum] := by
  have hprogram : (parse (Utf8.encode "10 F (A + B) * C")).program =
      [.lineNumber "10" none ⟨1, 1⟩,
        .call "F" [.binary .add (.var "A" [] ⟨1, 7⟩) (.var "B" [] ⟨1, 11⟩) ⟨1, 9⟩] ⟨1, 4⟩,
        .label "C" ⟨1, 14⟩] := by
    rfl
  refine ⟨by decide +kernel, by decide +kernel, hprogram, ⟨by decide +kernel, ?_⟩, ?_⟩
  · exact ⟨[.binary .mul (.binary .add (.var "A" [] ⟨1, 7⟩) (.var "B" [] ⟨1, 11⟩) ⟨1, 9⟩)
      (.var "C" [] ⟨1, 16⟩) ⟨1, 14⟩], ⟨1, 1⟩, ⟨1, 4⟩, rfl, rfl⟩
  · -- the line holds three statements, and with the call alone it would hold two
    rintro ⟨-, found, numberLoc, loc, -, hholds⟩
    have htwo : (parse (Utf8.encode "10 F (A + B) * C")).program =
        [.lineNumber "10" none numberLoc, .call "F" found loc] := hholds
    rw [hprogram] at htwo
    cases htwo

end LineBasic
