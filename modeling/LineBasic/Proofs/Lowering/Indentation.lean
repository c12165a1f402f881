import LineBasic.Proofs.Lowering.Rows

/-!
# Indentation of C text

The lowering indents a construct after it has lowered what stands in it: it splits the text at the
line feeds and moves every line to the right, once for every construct around. What comes out is the
layout of the program, with each line moved by its depth at once (`programToC_indent`), because the
lines that the text is split into are those of the layout.
-/

namespace LineBasic

open CText Row

/-! ## Moving lines to the right -/

namespace CText

/-- No depth, no padding. -/
theorem pad_zero (line : String) : pad 0 line = line := by
  unfold pad
  split
  next h => exact h.symm
  next => simp

/-- The paddings of nested blocks add up. -/
theorem pad_pad (outer inner : Nat) (line : String) :
    pad outer (pad inner line) = pad (outer + inner) line := by
  by_cases h : line = ""
  · rw [h]
    rfl
  · have hinner : pad inner line ≠ "" := by simp [pad, h]
    rw [pad, if_neg hinner, pad, if_neg h, pad, if_neg h, ← List.replicate_append_replicate,
      String.ofList_append, String.append_assoc]

/-- Padding breaks no line. -/
theorem oneLine_pad {line : String} (width : Nat) (h : OneLine line) :
    OneLine (pad width line) := by
  unfold pad
  split
  · decide
  · refine oneLine_append.2 ⟨?_, h⟩
    simp [OneLine]

/-- Nothing happens to a line once it has started. -/
theorem indentChars_line (spaces : List Char) {line : List Char} (h : '\n' ∉ line)
    (rest : List Char) :
    indentChars spaces false (line ++ '\n' :: rest) =
      line ++ '\n' :: indentChars spaces true rest := by
  induction line with
  | nil => simp [indentChars]
  | cons c line ih =>
    rw [List.mem_cons, not_or] at h
    rw [List.cons_append, indentChars, if_neg (Ne.symm h.1), ih h.2]
    rfl

/-- A line is moved to the right by itself. -/
theorem indent_line (width : Nat) {line : String} (h : OneLine line) (rest : String) :
    indent width (line ++ "\n" ++ rest) = pad width line ++ "\n" ++ indent width rest := by
  have hchars : indentChars (List.replicate width ' ') true (line.toList ++ '\n' :: rest.toList) =
      (pad width line).toList ++
        '\n' :: indentChars (List.replicate width ' ') true rest.toList := by
    unfold pad
    split
    next hempty => rw [hempty]; simp [indentChars]
    next hne =>
      -- the spaces go before the first character, behind which the line has started
      obtain ⟨c, tail, hline⟩ := List.exists_cons_of_ne_nil (String.toList_eq_nil_iff.not.2 hne)
      rw [OneLine, hline, List.mem_cons, not_or] at h
      rw [String.toList_append, String.toList_ofList, hline, List.cons_append, indentChars,
        if_neg (Ne.symm h.1), if_pos rfl, indentChars_line _ h.2]
      simp
  apply String.toList_inj.1
  simpa [indent] using hchars

end CText

namespace Row

/-- The C text of some lines. -/
def linesToC (width : Nat) (rows : List Row) : String :=
  CText.lines (rows.map (toC width))

variable {width : Nat} {rows : List Row}

@[simp]
theorem linesToC_nil : linesToC width [] = "" := rfl

@[simp]
theorem linesToC_cons (row : Row) (rows : List Row) :
    linesToC width (row :: rows) = row.toC width ++ "\n" ++ linesToC width rows := by
  rw [linesToC, CText.lines, List.map_cons, List.map_cons, String.join_cons]
  rfl

/-- The lines of two blocks stand one below the other. -/
@[simp]
theorem linesToC_append (left right : List Row) :
    linesToC width (left ++ right) = linesToC width left ++ linesToC width right := by
  rw [linesToC, CText.lines, List.map_append, List.map_append, String.join_append]
  rfl

@[simp]
theorem toC_zero (text : String) : toC width ⟨0, text⟩ = text :=
  CText.pad_zero text

theorem toC_deeper (row : Row) : row.deeper.toC width = CText.pad width (row.toC width) := by
  rw [toC, toC, CText.pad_pad, deeper, Nat.mul_succ, Nat.add_comm]

/-- Lines are moved to the right by going one construct deeper. -/
theorem indent_linesToC (width : Nat) (rows : List Row) (h : AllOneLine rows) :
    CText.indent width (linesToC width rows) = linesToC width (rows.map deeper) := by
  induction rows with
  | nil => rfl
  | cons row rows ih =>
    rw [allOneLine_cons] at h
    have hrow : OneLine (row.toC width) := oneLine_pad _ h.1
    rw [linesToC_cons, indent_line width hrow, ih h.2, List.map_cons, linesToC_cons, toC_deeper]

end Row

section Layout

variable (style : Style) (width : Nat)

/-! ## Statements line by line -/

namespace Style

/-- The rows of a `GOSUB` are its lines, of whatever width the indentation is. -/
theorem gosub_eq_linesToC {target : JumpTarget} (h : target.isSpellable = true) :
    { style with indent := width }.gosub target ++ "\n" =
      linesToC width (style.gosubRows target) := by
  -- the jump is the one line that stands deeper
  have hbody : CText.indent width (target.toC ++ "\n") = linesToC width [⟨1, target.toC⟩] := by
    simpa [deeper] using
      indent_linesToC width [⟨0, target.toC⟩] (by simpa using target.oneLine_toC h)
  unfold gosub gosubRows
  apply String.toList_inj.1
  cases style.returnSlot <;> simp [callRows, braced, indented, hbody]

/-- The rows of a `RETURN` are its lines. -/
theorem ret_eq_linesToC :
    { style with indent := width }.ret ++ "\n" = linesToC width style.retRows := by
  unfold ret retRows
  apply String.toList_inj.1
  cases style.returnSlot <;> simp

/-- The rows of a jump are its lines, for both keywords. -/
theorem jump_eq_linesToC (kind : JumpKind) {target : JumpTarget} (h : target.isSpellable = true) :
    { style with indent := width }.jump kind target ++ "\n" =
      linesToC width (style.jumpRows kind target) := by
  cases kind with
  | goto => simp [jump, jumpRows]
  | gosub => exact style.gosub_eq_linesToC width h

/-- The rows of the cases are their lines, each with its jump one level further in. -/
theorem cases_eq_linesToC (kind : JumpKind) (first : Nat) {targets : List JumpTarget}
    (h : ∀ target ∈ targets, target.isSpellable = true) :
    { style with indent := width }.cases kind first targets =
      linesToC width (style.caseRows kind first targets) := by
  induction targets generalizing first with
  | nil => rfl
  | cons target targets ih =>
    rw [List.forall_mem_cons] at h
    -- a case is the jump and the way out of the selection, both one construct deeper
    have hbody : CText.indent width
        ({ style with indent := width }.jump kind target ++ "\nbreak;\n") =
          linesToC width (List.map deeper (style.jumpRows kind target ++ [⟨0, "break;"⟩])) := by
      have hrows : AllOneLine (style.jumpRows kind target ++ [⟨0, "break;"⟩]) :=
        allOneLine_append.2 ⟨style.allOneLine_jumpRows kind h.1, allOneLine_singleton.2 (by decide)⟩
      rw [← indent_linesToC width _ hrows, linesToC_append, ← style.jump_eq_linesToC width kind h.1]
      simp [String.append_assoc]
    rw [Style.cases, caseRows, ih (first + 1) h.2, indented, hbody]
    simp [String.append_assoc]

/-- The rows of an `ON` are its lines, the cases inside the `switch`. -/
theorem on_eq_linesToC (value : Expr) (kind : JumpKind) {targets : List JumpTarget}
    (h : ∀ target ∈ targets, target.isSpellable = true) :
    { style with indent := width }.on value kind targets ++ "\n" =
      linesToC width (style.onRows value kind targets) := by
  have hdefault : CText.indent width "// nothing to do\nbreak;\n" =
      linesToC width [⟨1, "// nothing to do"⟩, ⟨1, "break;"⟩] :=
    indent_linesToC width [⟨0, "// nothing to do"⟩, ⟨0, "break;"⟩]
      (allOneLine_cons.2 ⟨by decide, allOneLine_singleton.2 (by decide)⟩)
  rw [Style.on, style.cases_eq_linesToC width kind 1 h, indented, hdefault, onRows]
  simp [braced, String.append_assoc]

end Style

/-- The C text of the statement is that of its lines, none of which has a line feed in it. -/
structure Statement.ByLine (statement : Statement) : Prop where
  oneLine : AllOneLine (statement.rows style)
  toC_eq : statement.toC { style with indent := width } ++ "\n" =
    linesToC width (statement.rows style)

variable {style width}

/-- Statements that are written line by line are so in a list. -/
theorem lines_listToC {statements : List Statement}
    (h : ∀ statement ∈ statements, statement.ByLine style width) :
    CText.lines (Statement.listToC { style with indent := width } statements) =
      linesToC width (Statement.listRows style statements) := by
  induction statements with
  | nil => rfl
  | cons head tail ih =>
    rw [List.forall_mem_cons] at h
    rw [Statement.listRows, linesToC_append, ← h.1.toC_eq, ← ih h.2, Statement.listToC, CText.lines,
      List.map_cons, String.join_cons, ← CText.lines]

/-- The statements in a construct. -/
theorem indented_lines (statements : List Statement)
    (h : ∀ statement ∈ statements, statement.ByLine style width) :
    { style with indent := width }.indented
        (CText.lines (Statement.listToC { style with indent := width } statements)) =
      linesToC width ((Statement.listRows style statements).map deeper) := by
  have hrows : AllOneLine (Statement.listRows style statements) :=
    Statement.allOneLine_listRows fun statement hstatement => (h statement hstatement).oneLine
  rw [lines_listToC h, Style.indented, indent_linesToC width _ hrows]

namespace Branch

/-- What stands before an arm is put there and not changed. -/
theorem toC_append (arm : Branch) (style : Style) (left right : String) :
    arm.toC style (left ++ right) = left ++ arm.toC style right := by
  cases arm <;> simp [toC, braced, String.append_assoc]

/-- An arm is written line by line if its statements are. -/
theorem toC_eq_linesToC (head : String) {arm : Branch}
    (h : ∀ statement ∈ arm.statements, statement.ByLine style width) :
    arm.toC { style with indent := width } head ++ "\n" =
      linesToC width (arm.rows style head ++ arm.closing) := by
  cases arm with
  | goto target => simp [toC, rows, closing]
  | block statements =>
    have hbody := indented_lines statements h
    rw [toC, hbody, rows, closing]
    simp [braced, String.append_assoc]

end Branch

/-- An `IF` is written line by line if the statements of its arms are. -/
theorem Statement.cond_eq_linesToC (condition : Expr) {consequence : Branch}
    {alternative : Option Branch} (loc : Location)
    (hfirst : ∀ statement ∈ consequence.statements, statement.ByLine style width)
    (hsecond : ∀ arm ∈ alternative, ∀ statement ∈ arm.statements, statement.ByLine style width) :
    (Statement.cond condition consequence alternative loc).toC { style with indent := width } ++
        "\n" =
      linesToC width ((Statement.cond condition consequence alternative loc).rows style) := by
  cases alternative with
  | none =>
    rw [rows, Branch.elseRows, ← Branch.toC_eq_linesToC _ hfirst]
    cases consequence <;> rw [toC, Branch.elseToC, String.append_empty]
  | some arm =>
    have harm (head : String) := Branch.toC_eq_linesToC head (hsecond arm rfl)
    rw [rows, Branch.elseRows, linesToC_append, ← harm]
    -- a second arm starts on a line of its own behind a jump, and on the line of the brace that
    -- closes the first arm behind a block
    cases consequence with
    | goto target =>
      have helse : arm.toC { style with indent := width } "\nelse" =
          "\n" ++ arm.toC { style with indent := width } "else" :=
        arm.toC_append _ "\n" "else"
      rw [toC, Branch.elseToC, Branch.toC, Branch.rows, Branch.elseHead]
      simp [helse, String.append_assoc]
    | block statements =>
      have hbody := indented_lines statements hfirst
      have helse : arm.toC { style with indent := width } "\x7d else" =
          "\x7d" ++ arm.toC { style with indent := width } " else" :=
        arm.toC_append _ "\x7d" " else"
      rw [toC, Branch.elseToC, Branch.toC, hbody, Branch.rows, Branch.elseHead, helse]
      simp [braced, String.append_assoc]

/-- The C text of a statement is its lines, moved to their depths. -/
theorem Statement.byLine {statement : Statement} (h : statement.IsLexical) :
    statement.ByLine style width := by
  induction statement using Statement.induction with
  | step statement ih =>
    refine ⟨statement.allOneLine_rows style h, ?_⟩
    have hnamed := h.isNamed
    -- what is inside is written line by line, by the induction hypothesis
    have hchildren child hchild := ih child hchild (h.child child hchild)
    cases statement with
    | lineNumber name data loc => cases data <;> simp [toC, rows]
    | label name loc => simp [toC, rows, String.append_assoc]
    | dim arrays loc => simp [toC, rows]
    | cond condition consequence alternative loc =>
      obtain ⟨hfirst, hsecond⟩ := List.forall_mem_append.1 hchildren
      refine cond_eq_linesToC condition loc hfirst fun arm harm statement hstatement => ?_
      exact hsecond statement (List.mem_flatMap.2 ⟨arm, Option.mem_toList.2 harm, hstatement⟩)
    | on value kind targets loc =>
      exact style.on_eq_linesToC width value kind (List.all_eq_true.1 hnamed)
    | goto target loc => simp [toC, rows]
    | gosub target loc =>
      exact style.gosub_eq_linesToC width (List.all_eq_true.1 hnamed target List.mem_cons_self)
    | ret loc => exact style.ret_eq_linesToC width
    | loop counter first last step body loc =>
      -- the lines of the body are padded as a block, which pads each of its rows
      have hbody := indented_lines body hchildren
      rw [toC, hbody, rows]
      simp [braced, String.append_assoc]
      rfl
    | assign name indices value loc | call function arguments loc => simp [toC, rows]

/-! ## Programs line by line -/

/-- The rows of the preamble are its lines. -/
theorem Style.preamble_eq_linesToC : style.preamble = linesToC width style.preambleRows := by
  unfold preamble preambleRows
  apply String.toList_inj.1
  cases style.returnSlot <;> simp

/-- A program from the lexer is written line by line, preamble included. -/
theorem programToC_eq_linesToC {program : List Statement}
    (h : ∀ statement ∈ program, statement.IsLexical) :
    programToC { style with indent := width } program =
      linesToC width (programRows style program) := by
  have hbyLine (statement) (hstatement : statement ∈ program) : statement.ByLine style width :=
    Statement.byLine (h statement hstatement)
  unfold programToC Style.wrap programRows
  split
  · -- on its own, the program gets a preamble, one level of padding and a last row
    have hend : { style with indent := width }.indented "return 0;\n" =
        linesToC width [⟨1, "return 0;"⟩] :=
      indent_linesToC width [⟨0, "return 0;"⟩] (allOneLine_singleton.2 (by decide))
    have hpreamble : { style with indent := width }.preamble = linesToC width style.preambleRows :=
      style.preamble_eq_linesToC
    rw [indented_lines program hbyLine, hend, hpreamble]
    apply String.toList_inj.1
    simp
  · exact lines_listToC hbyLine

end Layout

/-- The C text of a program is its lines, none of which has a line feed in it, each moved by its
depth. The lines do not depend on how wide the indentation is. -/
theorem programToC_indent (bytes : List UInt8) (style : Style) (width : Nat) :
    (∀ row ∈ programRows style (parse bytes).program, '\n' ∉ row.text.toList) ∧
      programToC { style with indent := 0 } (parse bytes).program =
        CText.lines ((programRows style (parse bytes).program).map Row.text) ∧
      programToC { style with indent := width } (parse bytes).program =
        CText.lines ((programRows style (parse bytes).program).map (Row.toC width)) := by
  have hlexical (statement) (h : statement ∈ (parse bytes).program) : statement.IsLexical :=
    isLexical_of_mem_parse h
  refine ⟨allOneLine_programRows style bytes, ?_, programToC_eq_linesToC hlexical⟩
  -- at width zero, every depth pads with nothing
  have hzero : toC 0 = text := by
    funext row
    rw [toC, Nat.zero_mul, pad_zero]
  rw [programToC_eq_linesToC hlexical, linesToC, hzero]

/-- The jump of a subroutine call in a loop stands in two constructs. -/
example :
    (programRows .standard (parse (Utf8.encode "10 FOR I=1 TO 3:GOSUB 20:NEXT")).program).map
        (fun row => (row.depth, row.text)) =
      [(0, "_10:;"), (0, "for (int I = 1; I != 3; I += 1) \x7b"),
        (1, "if (setjmp(env) == 0) \x7b"), (2, "goto _20;"), (1, "\x7d"),
        (1, "// return from longjmp()"), (0, "\x7d")] := by
  decide +kernel

end LineBasic
