import LineBasic.Proofs.Declarations
import LineBasic.Proofs.LineIsolation
import LineBasic.Proofs.Spelling.Parse

/-!
# Expressions survive being written and parsed

An expression written on a numbered line, as the value of an assignment, is what the parser
finds there, up to the places of its parts (`parse_assignmentLine`). Lines that come before may
declare arrays: the name before a list in parentheses is that of an array if one of them does, and
that of a function if none does.
-/

namespace LineBasic

open Cursor Parse

namespace Grammar

variable {cursor : Cursor} {levels : Nat}

/-- A line number on its own is a statement. -/
theorem statement_lineNumber (hkind : cursor.current.kind = .lineNo)
    (hdata : cursor.peek.kind ≠ .word .data) :
    statement (levels + 1) cursor =
      (some (.lineNumber cursor.current.literal none cursor.current.loc),
        cursor.note (.parsed cursor.current.loc)) := by
  have hrule : statementRule (expression levels) (statement levels) cursor =
      .ok (some (.lineNumber cursor.current.literal none cursor.current.loc)) cursor := by
    rw [statementRule_apply, hkind]
    dsimp only
    rw [map_eq_ok]
    refine ⟨_, ?_, rfl⟩
    simp only [lineNumber, bind_apply, current_apply, peek_apply]
    rw [if_neg hdata]
    rfl
  rw [statement, recover, hrule]
  rfl

/-- The steps over a line number on its own, and those from the token behind it. -/
theorem exists_steps_lineNumber (hkind : cursor.current.kind = .lineNo)
    (hdata : cursor.peek.kind ≠ .word .data) :
    ∃ middle, middle.tokens = cursor.rest ∧ middle.isArray = cursor.isArray ∧
      middle.diagnostics = cursor.diagnostics ∧
      (steps cursor).1.filterMap (·.statement) =
        .lineNumber cursor.current.literal none cursor.current.loc ::
          (steps middle).1.filterMap (·.statement) ∧
      (steps cursor).2 = (steps middle).2 := by
  have hfound : statement maxNesting cursor = _ := statement_lineNumber hkind hdata
  obtain ⟨hsteps, hlast⟩ := steps_of_statement (by rw [hkind]; decide) hfound
  refine ⟨(cursor.note (.parsed cursor.current.loc)).advance, rfl, rfl, ?_, hsteps, hlast⟩
  rw [(drift_moves.advance _).diagnostics, diagnostics_note]
  exact List.append_nil _

/-- An assignment of a written expression, with nothing after it. -/
theorem exists_statement_assign {declared : String → Bool} {name equals : String} {value : Expr}
    {faces : List (Token.Kind × String)} (hyields : Yields declared levels openPower faces value)
    (harrays : cursor.isArray = declared)
    (hshows : Shows ((.ident, name) :: (.sym .eq, equals) :: faces) cursor.tokens []) :
    ∃ found last, Finds cursor.advance [] value found last ∧
      statement (levels + 2) cursor =
        (some (.assign name [] found cursor.current.loc),
          last.note (.parsed cursor.current.loc)) := by
  obtain ⟨hkind, hliteral, hrest⟩ := hshows.current
  obtain ⟨hequals, -, hvalue⟩ := hrest.peek
  have harrays' : cursor.advance.isArray = declared := harrays
  obtain ⟨found, last, hrun, hfinds⟩ := hyields.next harrays' hvalue .nil
  refine ⟨found, last, hfinds, ?_⟩
  -- the value reaches to the end of the line, so no separator follows it
  have hskip : last.skipSeparator = last := by
    rw [Cursor.skipSeparator, Cursor.peekIs, peek_of_rest_nil hfinds.rest]
    rfl
  have hassign : assignTo (expression (levels + 1)) cursor.current [] cursor =
      .ok (.assign name [] found cursor.current.loc) last := by
    simp only [assignTo, bind_eq_ok, expect_eq_ok, skipSeparator_apply]
    refine ⟨_, _, ⟨hequals, rfl, rfl⟩, found, last, hrun, (), last, ?_, ?_⟩
    · rw [hskip]
    · rw [hliteral]
      rfl
  have hrule : statementRule (expression (levels + 1)) (statement (levels + 1)) cursor =
      .ok (some (.assign name [] found cursor.current.loc)) last := by
    rw [statementRule_apply, hkind]
    dsimp only
    rw [map_eq_ok]
    refine ⟨_, ?_, rfl⟩
    simp only [namedStatement, bind_apply, current_apply, peek_apply]
    rw [if_pos hequals]
    exact hassign
  rw [statement, recover, hrule]
  rfl

/-- The steps over a line that assigns a written expression. -/
theorem exists_steps_assignmentLine {gap : Nat} {number name : String} {value : Expr}
    (hvalue : value.isSpellable cursor.isArray = true) (hlevels : value.levels + 2 ≤ maxNesting)
    (hshows : Shows ((.lineNo, number) :: (.ident, name) :: (.sym .eq, "=") ::
      Mark.faces (value.marks gap)) cursor.tokens []) :
    ∃ found numberLoc loc, found.unplaced = value.unplaced ∧
      (steps cursor).1.filterMap (·.statement) =
        [.lineNumber number none numberLoc, .assign name [] found loc] ∧
      (steps cursor).2.diagnostics = cursor.diagnostics := by
  obtain ⟨hkind, hliteral, hrest⟩ := hshows.current
  have hdata : cursor.peek.kind ≠ .word .data := by
    rw [hrest.peek.1]
    decide
  -- the line number
  obtain ⟨middle, htokens, harrays, hdiagnostics, hsteps, hlast⟩ :=
    exists_steps_lineNumber hkind hdata
  rw [← htokens] at hrest
  rw [← harrays] at hvalue
  -- the assignment
  have hyields : Yields middle.isArray 62 openPower (Mark.faces (value.marks gap)) value :=
    yields_of_isSpellable gap hvalue (Nat.le_of_add_le_add_right hlevels)
  obtain ⟨found, last, hfinds, hfound⟩ := exists_statement_assign hyields rfl hrest
  obtain ⟨hsteps', hlast'⟩ :=
    steps_of_last (by rw [hrest.current.1]; decide) hfound hfinds.rest
  refine ⟨found, cursor.current.loc, middle.current.loc, hfinds.same, ?_, ?_⟩
  · rw [hsteps, hsteps', hliteral]
    rfl
  · rw [hlast, hlast', (drift_moves.advance _).diagnostics, diagnostics_note,
      hfinds.moves.diagnostics, (drift_moves.advance _).diagnostics, hdiagnostics]
    exact List.append_nil _

end Grammar

/-- The parser on a line behind others. It knows the arrays that those declare, and what is wrong
with them stays wrong. -/
theorem exists_behind_line {left line : List UInt8} {number : String}
    {faces : List (Token.Kind × String)}
    (hline : TokenizesTo line ((.lineNo, number) :: faces))
    (h : (∀ token ∈ tokenize left, token.kind ≠ .word .for_) ∨ (parse left).isClean = true) :
    ∃ (behind : Cursor) (first : Token),
      Shows ((.lineNo, number) :: faces) behind.tokens [] ∧
      behind.isArray = (parse left).final.isArray ∧
      behind.diagnostics = (parse left).diagnostics.map (·.retarget first) ∧
      (parse (left ++ 0x0A :: line)).final = (Grammar.steps behind).2 ∧
      (parse (left ++ 0x0A :: line)).program =
        (parse left).program ++ (Grammar.steps behind).1.filterMap (·.statement) := by
  obtain ⟨body, finish, hright, hfaces⟩ := hline
  obtain ⟨first, rest, rfl, hfirst, -⟩ := List.map_eq_cons_iff.1 hfaces
  obtain ⟨behind, htokens, -, harrays, hdiagnostics, hfinal, hprogram⟩ :=
    exists_behind hright rfl (congrArg Prod.fst hfirst) h
  refine ⟨behind, _, ⟨behind.tokens, (List.append_nil _).symm, ?_⟩, funext harrays, hdiagnostics,
    hfinal, hprogram⟩
  -- the line is further down there, and that changes no kind and no literal
  rw [htokens, List.map_map, ← hfaces]
  rfl

/-- The line that assigns an expression to a variable, after lines with nothing wrong in them, has
nothing wrong in it and assigns that expression. The names of arrays are those that the lines
before it declare. The statement and its value are two of the levels that the line needs. -/
theorem parse_assignmentLine (left : List UInt8) (gap : Nat) (number name : String) (value : Expr)
    (hleft : (parse left).isClean = true) (hnumber : isDigits number = true)
    (hname : isName name = true)
    (hvalue : value.isSpellable (Statement.listDeclares (parse left).program) = true)
    (hlevels : value.levels + 2 ≤ maxNesting) :
    (parse (left ++ 0x0A :: assignmentLine gap number name value)).isClean = true ∧
      ∃ found numberLoc loc, found.unplaced = value.unplaced ∧
        (parse (left ++ 0x0A :: assignmentLine gap number name value)).program =
          (parse left).program ++
            [.lineNumber number none numberLoc, .assign name [] found loc] := by
  obtain ⟨behind, first, hshows, harrays, hdiagnostics, hfinal, hprogram⟩ :=
    exists_behind_line (tokenizesTo_assignmentLine gap hnumber hname hvalue) (.inr hleft)
  rw [← isArray_final_of_isClean hleft, ← harrays] at hvalue
  obtain ⟨found, numberLoc, loc, hsame, hfound, hlast⟩ :=
    Grammar.exists_steps_assignmentLine hvalue hlevels hshows
  refine ⟨?_, found, numberLoc, loc, hsame, ?_⟩
  · have hclean : (parse left).diagnostics = [] := List.isEmpty_iff.1 hleft
    rw [Listing.isClean, Listing.diagnostics, hfinal, hlast, hdiagnostics, hclean]
    rfl
  · rw [hprogram, hfound]

/-- The theorem at an expression with an element of an array, a call without arguments and
operators on both sides of which parentheses are needed. -/
theorem parse_assignmentLine_mixed :
    (parse (Utf8.encode "10 DIM A(3)\n20 X = A(1, - Y) * ( 2 + F() ) - ( B - C )")).isClean =
        true ∧
      ∃ found numberLoc loc,
        found.unplaced =
          .binary .sub
            (.binary .mul
              (.var "A" [.int ⟨1, "1", .start⟩, .unary .neg (.var "Y" [] .start) .start] .start)
              (.binary .add (.int ⟨2, "2", .start⟩) (.call "F" [] .start) .start) .start)
            (.binary .sub (.var "B" [] .start) (.var "C" [] .start) .start) .start ∧
        (parse (Utf8.encode "10 DIM A(3)\n20 X = A(1, - Y) * ( 2 + F() ) - ( B - C )")).program =
          (parse (Utf8.encode "10 DIM A(3)")).program ++
            [.lineNumber "20" none numberLoc, .assign "X" [] found loc] := by
  let value : Expr :=
    .binary .sub
      (.binary .mul
        (.var "A" [.int ⟨1, "1", .start⟩, .unary .neg (.var "Y" [] .start) .start] .start)
        (.binary .add (.int ⟨2, "2", .start⟩) (.call "F" [] .start) .start) .start)
      (.binary .sub (.var "B" [] .start) (.var "C" [] .start) .start) .start
  have hbytes : Utf8.encode "10 DIM A(3)\n20 X = A(1, - Y) * ( 2 + F() ) - ( B - C )" =
      Utf8.encode "10 DIM A(3)" ++ 0x0A :: assignmentLine 1 "20" "X" value := by
    decide +kernel
  rw [hbytes]
  exact parse_assignmentLine (Utf8.encode "10 DIM A(3)") 1 "20" "X" value (by decide +kernel)
    (by decide) (by decide) (by decide +kernel) (by decide)

end LineBasic
