import LineBasic.Lowering.Program
import LineBasic.Proofs.Grammar.Names
import LineBasic.Proofs.Lowering.ReadBack

/-!
# Lines of C text

The C text of a program can be laid out in one pass, line by line: each line has a text, on which
the width of the indentation has no influence, and a depth, the number of constructs around it
(`programRows`). The constructs are the main function, the blocks of `IF`, the bodies of loops, the
cases of `ON` and what is run where the way back of a subroutine is saved.

No line of a program has a line feed in it (`allOneLine_programRows`), as no name, literal or
payload has one. This holds whether or not something is wrong with the listing.
-/

namespace LineBasic

/-! ## Lines with a depth -/

/-- A line with spaces in front of it. An empty line stays empty. -/
def CText.pad (width : Nat) (line : String) : String :=
  if line = "" then "" else String.ofList (List.replicate width ' ') ++ line

/-- A line of C text. -/
structure Row where
  /-- How many constructs stand around the line. -/
  depth : Nat
  /-- The text of the line, without its indentation. -/
  text : String

namespace Row

/-- A line inside one more construct. -/
def deeper (row : Row) : Row := { row with depth := row.depth + 1 }

/-- The line with `width` spaces for each construct around it. -/
def toC (width : Nat) (row : Row) : String := CText.pad (width * row.depth) row.text

end Row

/-! ## Layout of programs -/

namespace Style

/-- The lines of a call of a subroutine that saves the way back in `slot`. -/
def callRows (slot : String) (target : JumpTarget) : List Row :=
  [⟨0, "if (setjmp(" ++ slot ++ ") == 0) \x7b"⟩, ⟨1, target.toC⟩, ⟨0, "\x7d"⟩,
    ⟨0, "// return from longjmp()"⟩]

/-- The lines of a call of a subroutine. -/
def gosubRows (style : Style) (target : JumpTarget) : List Row :=
  match style.returnSlot with
  | .shared => callRows "env" target
  | .stack =>
    ⟨0, "if (_ret_sp >= " ++ toString style.stackDepth ++ ") abort();"⟩ ::
      callRows "_ret_stack[_ret_sp++]" target

/-- The lines of the way back from a subroutine. -/
def retRows (style : Style) : List Row :=
  match style.returnSlot with
  | .shared => [⟨0, "longjmp(env, 1);"⟩, ⟨0, CText.separator⟩]
  | .stack =>
    [⟨0, "if (_ret_sp == 0) abort();"⟩, ⟨0, "longjmp(_ret_stack[--_ret_sp], 1);"⟩,
      ⟨0, CText.separator⟩]

/-- The lines of the jump that `ON` makes to one of its targets. -/
def jumpRows (style : Style) (kind : JumpKind) (target : JumpTarget) : List Row :=
  match kind with
  | .goto => [⟨0, target.toC⟩]
  | .gosub => style.gosubRows target

/-- The lines of the cases of an `ON`, numbered from `first`. -/
def caseRows (style : Style) (kind : JumpKind) : (first : Nat) → List JumpTarget → List Row
  | _, [] => []
  | first, target :: targets =>
    ⟨0, "case " ++ toString first ++ ":"⟩ ::
      (List.map Row.deeper (style.jumpRows kind target ++ [⟨0, "break;"⟩]) ++
        style.caseRows kind (first + 1) targets)

/-- The lines of a selection of one of several jumps. -/
def onRows (style : Style) (value : Expr) (kind : JumpKind) (targets : List JumpTarget) :
    List Row :=
  ⟨0, "switch (" ++ value.toC ++ ") \x7b"⟩ :: (style.caseRows kind 1 targets ++
    [⟨0, "default:"⟩, ⟨1, "// nothing to do"⟩, ⟨1, "break;"⟩, ⟨0, "\x7d"⟩])

/-- The lines before the main function. -/
def preambleRows (style : Style) : List Row :=
  match style.returnSlot with
  | .shared => [⟨0, "#include <setjmp.h>"⟩, ⟨0, ""⟩, ⟨0, "jmp_buf env;"⟩]
  | .stack =>
    [⟨0, "#include <setjmp.h>"⟩, ⟨0, "#include <stdlib.h>"⟩, ⟨0, ""⟩,
      ⟨0, "jmp_buf _ret_stack[" ++ toString style.stackDepth ++ "];"⟩, ⟨0, "int _ret_sp = 0;"⟩]

end Style

namespace Branch

/-- What stands before the `else` behind an arm. -/
def elseHead : Branch → String
  | goto _ => "else"
  | block _ => "\x7d else"

/-- The line that ends an arm, unless an `else` stands on it. -/
def closing : Branch → List Row
  | goto _ => []
  | block _ => [⟨0, "\x7d"⟩]

end Branch

mutual

/-- The lines of an arm after the text before it, without the line that ends it. -/
def Branch.rows (style : Style) (head : String) : Branch → List Row
  | .goto target => [⟨0, head ++ " " ++ target.toC⟩]
  | .block statements =>
    ⟨0, head ++ " \x7b"⟩ :: (Statement.listRows style statements).map Row.deeper

/-- The lines behind the first arm, which ends with `closing` unless there is a second one. -/
def Branch.elseRows (style : Style) (closing : List Row) (head : String) :
    Option Branch → List Row
  | none => closing
  | some branch => branch.rows style head ++ branch.closing

/-- The lines of a statement. -/
def Statement.rows (style : Style) : Statement → List Row
  | .lineNumber name none _ => [⟨0, CText.label name ++ ":;"⟩]
  | .lineNumber _ (some data) _ => [⟨0, data.toC⟩]
  | .label name _ => [⟨0, ""⟩, ⟨0, CText.separator⟩, ⟨0, CText.label name ++ ":;"⟩]
  | .dim arrays _ => [⟨0, "int " ++ String.intercalate ", " (arrays.map (·.toC)) ++ ";"⟩]
  | .cond condition consequence alternative _ =>
    consequence.rows style ("if (" ++ condition.toC ++ ")") ++
      Branch.elseRows style consequence.closing consequence.elseHead alternative
  | .on value kind targets _ => style.onRows value kind targets
  | .goto target _ => [⟨0, target.toC⟩]
  | .gosub target _ => style.gosubRows target
  | .ret _ => style.retRows
  | .loop counter first last step body _ =>
    ⟨0, style.loopHead counter first last step ++ " \x7b"⟩ ::
      ((Statement.listRows style body).map Row.deeper ++ [⟨0, "\x7d"⟩])
  | .assign name indices value _ =>
    [⟨0, CText.element name (Expr.listToC indices) ++ " = " ++ value.toC ++ ";"⟩]
  | .call function arguments _ => [⟨0, CText.call function (Expr.listToC arguments) ++ ";"⟩]

/-- The lines of some statements. -/
def Statement.listRows (style : Style) : List Statement → List Row
  | [] => []
  | head :: tail => head.rows style ++ Statement.listRows style tail

end

/-- The lines of a program. The main function is a construct around all statements. -/
def programRows (style : Style) (program : List Statement) : List Row :=
  if style.standalone then
    style.preambleRows ++ [⟨0, ""⟩, ⟨0, "int main(void)"⟩, ⟨0, "\x7b"⟩] ++
      (Statement.listRows style program).map Row.deeper ++ [⟨1, "return 0;"⟩, ⟨0, "\x7d"⟩]
  else
    Statement.listRows style program

namespace CText

/-! ## Texts without line feeds -/

/-- The text has no line feed in it. -/
def OneLine (text : String) : Prop := '\n' ∉ text.toList

instance (text : String) : Decidable (OneLine text) := inferInstanceAs (Decidable (_ ∉ _))

@[simp]
theorem oneLine_append {left right : String} :
    OneLine (left ++ right) ↔ OneLine left ∧ OneLine right := by
  simp [OneLine]

/-- A text of characters of one sort has no line feed if no line feed is of that sort. -/
theorem oneLine_of_forall {text : String} {p : Char → Prop} (h : ∀ c ∈ text.toList, p c)
    (hp : ¬p '\n') : OneLine text :=
  fun hmem => hp (h _ hmem)

/-- Texts without line feeds have none when they are put together. -/
theorem oneLine_join {texts : List String} (h : ∀ text ∈ texts, OneLine text) :
    OneLine (String.join texts) := by
  rw [OneLine, String.toList_join, List.mem_flatMap]
  exact fun ⟨text, htext, hmem⟩ => h text htext hmem

/-- Texts without line feeds have none when they are listed with commas between them. -/
theorem oneLine_intercalate {texts : List String} (h : ∀ text ∈ texts, OneLine text) :
    OneLine (String.intercalate ", " texts) := by
  induction texts with
  | nil => decide
  | cons head tail ih =>
    rw [List.forall_mem_cons] at h
    cases tail with
    | nil => simpa using h.1
    | cons next tail =>
      rw [String.intercalate_cons_cons, oneLine_append, oneLine_append]
      exact ⟨⟨h.1, by decide⟩, ih h.2⟩

/-- The digits of a number hold no line feed. -/
theorem oneLine_toString (n : Nat) : OneLine (toString n) := by
  rw [OneLine, Nat.toString_eq_repr, Nat.toList_repr]
  exact fun hmem => absurd (Nat.isDigit_of_mem_toDigits (by decide) (by decide) hmem) (by decide)

/-- A name holds letters, digits and marks of a type, and so no line feed. -/
theorem oneLine_of_isName {name : String} (h : isName name = true) : OneLine name :=
  oneLine_of_forall (fun _ => isAlphanum_of_mem h) (by decide)

theorem oneLine_of_isDigits {text : String} (h : isDigits text = true) : OneLine text :=
  oneLine_of_forall (fun _ => isDigit_of_mem h) (by decide)

/-- A numeral holds digits and maybe a point, and so no line feed. -/
theorem oneLine_of_isNumeral {text : String} (h : isNumeral text = true) : OneLine text :=
  oneLine_of_forall (fun _ => isDigit_or_of_mem h) (by decide)

/-- The label of a name is a line if the name is. -/
theorem oneLine_label {name : String} (h : OneLine name) : OneLine (label name) := by
  unfold label
  split
  · split
    · exact oneLine_append.2 ⟨by decide, h⟩
    · exact h
  · exact h

/-- A text in quotes is a line if the text is: escaping adds backslashes only. -/
theorem oneLine_quote {text : String} (h : OneLine text) : OneLine (quote text) := by
  have hescape : OneLine (String.ofList (text.toList.flatMap escapeChar)) := by
    rw [OneLine, String.toList_ofList, List.mem_flatMap]
    rintro ⟨c, hc, hmem⟩
    have hne : c ≠ '\n' := fun heq => h (heq ▸ hc)
    -- escaping puts in backslashes only
    unfold escapeChar at hmem
    split at hmem
    · exact absurd hmem (by decide)
    · split at hmem
      · exact absurd hmem (by decide)
      · exact hne (List.mem_singleton.1 hmem).symm
  simp only [quote, oneLine_append, hescape]
  decide

/-- A list of expressions, each of whose texts is one line. -/
theorem oneLine_of_mem_listToC {expressions : List Expr} (h : ∀ e ∈ expressions, OneLine e.toC) :
    ∀ text ∈ Expr.listToC expressions, OneLine text := by
  induction expressions with
  | nil => simp [Expr.listToC]
  | cons head tail ih =>
    rw [List.forall_mem_cons] at h
    rw [Expr.listToC, List.forall_mem_cons]
    exact ⟨h.1, ih h.2⟩

/-- An element of an array is a line if its name and its subscripts are. -/
theorem oneLine_element {name : String} {indices : List String} (hname : OneLine name)
    (hindices : ∀ index ∈ indices, OneLine index) : OneLine (element name indices) := by
  rw [element, oneLine_append]
  refine ⟨hname, oneLine_join fun text htext => ?_⟩
  obtain ⟨index, hindex, rfl⟩ := List.mem_map.1 htext
  simp only [oneLine_append, hindices index hindex]
  decide

/-- A call is a line if the name and the arguments are. -/
theorem oneLine_call {function : String} {arguments : List String} (hfunction : OneLine function)
    (harguments : ∀ argument ∈ arguments, OneLine argument) :
    OneLine (call function arguments) := by
  simp only [call, oneLine_append, hfunction, oneLine_intercalate harguments]
  decide

/-- The C text of an expression that the parser can find has no line feed. -/
theorem oneLine_toC {e : Expr} (h : e.isLexical = true) : OneLine e.toC := by
  induction e using Expr.induction with
  | var name indices loc ih =>
    rw [Expr.isLexical, Bool.and_eq_true, Expr.listIsLexical_iff] at h
    exact oneLine_element (oneLine_of_isName h.1)
      (oneLine_of_mem_listToC fun e he => ih e he (h.2 e he))
  | int literal =>
    rw [Expr.isLexical, IntLit.isSpellable, Bool.and_eq_true, Bool.and_eq_true] at h
    exact oneLine_of_isDigits h.1.1
  | str text loc =>
    -- quotes take care of any character, and no string has a line feed in it anyway
    refine oneLine_quote (oneLine_of_forall (p := (isStringChar · = true)) ?_ (by decide))
    exact List.all_eq_true.1 h
  | unary op operand loc ih =>
    have hop : OneLine (op.toC operand.toC) := by
      cases op
      all_goals
        simp only [UnaryOp.toC, oneLine_append, ih h]
        decide
    exact hop
  | binary op left right loc ih ih' =>
    rw [Expr.isLexical, Bool.and_eq_true] at h
    have hop : OneLine op.toC := by cases op <;> decide
    simp only [Expr.toC, oneLine_append, hop, ih h.1, ih' h.2]
    decide
  | call function arguments loc ih =>
    rw [Expr.isLexical, Bool.and_eq_true, Expr.listIsLexical_iff] at h
    exact oneLine_call (oneLine_of_isName h.1)
      (oneLine_of_mem_listToC fun e he => ih e he (h.2 e he))

end CText

/-! ## Statements without line feeds -/

namespace Statement

/-- All names, numerals and expressions of the statement, and of those in it, are such as tokens
have. -/
def IsLexical (statement : Statement) : Prop :=
  statement.AllNamed ∧ ∃ levels, statement.Within (fun _ e => e.isLexical = true) levels

namespace IsLexical

variable {statement : Statement} (h : statement.IsLexical)

include h

/-- The names and labels in a lexical statement are such as tokens have. -/
theorem isNamed : statement.isNamed = true :=
  h.1 statement statement.mem_nodes_self

/-- The expression that a lexical statement starts with is lexical. -/
theorem heads : ∀ e ∈ statement.heads, e.isLexical = true := by
  obtain ⟨-, levels, ⟨hheads, -, -⟩⟩ := h
  exact hheads

/-- The expressions that a lexical statement reads are lexical. -/
theorem operands : ∀ e ∈ statement.operands, e.isLexical = true := by
  obtain ⟨-, levels, ⟨-, hoperands, -⟩⟩ := h
  exact hoperands

/-- The statements in a lexical statement are lexical. -/
theorem child : ∀ child ∈ statement.children, child.IsLexical := by
  obtain ⟨hnamed, levels, ⟨-, -, hwithin⟩⟩ := h
  intro child hchild
  refine ⟨fun node hnode => hnamed node ?_, _, hwithin child hchild⟩
  rw [nodes_eq]
  exact List.mem_cons_of_mem _ (mem_listNodes.2 ⟨child, hchild, hnode⟩)

end IsLexical

end Statement

/-- The statements of a program are lexical, whether or not anything is wrong with the listing. -/
theorem isLexical_of_mem_parse {bytes : List UInt8} {statement : Statement}
    (h : statement ∈ (parse bytes).program) : statement.IsLexical :=
  ⟨fun _ hnode => isNamed_of_mem_program (Statement.mem_listNodes.2 ⟨statement, h, hnode⟩), _,
    program_within Grammar.passes_isLexical bytes (allows_of_mem_tokenize bytes) statement h⟩

/-- No line has a line feed in it. -/
def Row.AllOneLine (rows : List Row) : Prop :=
  ∀ row ∈ rows, CText.OneLine row.text

namespace Row

@[simp]
theorem allOneLine_nil : AllOneLine [] := List.forall_mem_nil _

@[simp]
theorem allOneLine_cons {row : Row} {rows : List Row} :
    AllOneLine (row :: rows) ↔ CText.OneLine row.text ∧ AllOneLine rows :=
  List.forall_mem_cons

theorem allOneLine_singleton {row : Row} : AllOneLine [row] ↔ CText.OneLine row.text :=
  List.forall_mem_singleton

@[simp]
theorem allOneLine_append {left right : List Row} :
    AllOneLine (left ++ right) ↔ AllOneLine left ∧ AllOneLine right :=
  List.forall_mem_append

/-- The depth of a line plays no part in whether it is a single one. -/
@[simp]
theorem allOneLine_map_deeper {rows : List Row} :
    AllOneLine (rows.map deeper) ↔ AllOneLine rows :=
  List.forall_mem_map

end Row

open CText Row

/-- The C label of a line or of a name that tokens can have is a single line. -/
theorem JumpTarget.oneLine_toC {target : JumpTarget} (h : target.isSpellable = true) :
    OneLine target.toC := by
  have hname : OneLine target.name := by
    rw [JumpTarget.isSpellable, Bool.or_eq_true] at h
    exact h.elim oneLine_of_isNumeral oneLine_of_isName
  simp only [JumpTarget.toC, CText.goto, oneLine_append, oneLine_label hname]
  decide

/-- The declaration of the data of a line is a single line. -/
theorem DataItem.oneLine_toC {data : DataItem} (hname : isDigits data.name = true)
    (hvalue : isPayload data.value = true) : OneLine data.toC := by
  have hpayload : OneLine data.value := by
    rw [isPayload, Bool.and_eq_true] at hvalue
    refine oneLine_of_forall (p := (isPayloadChar · = true)) ?_ (by decide)
    exact List.all_eq_true.1 hvalue.2
  have hquoted : OneLine (if isQuoted data.value then data.value else quote data.value) := by
    split
    · exact hpayload
    · exact oneLine_quote hpayload
  simp only [DataItem.toC, oneLine_append, oneLine_label (oneLine_of_isDigits hname), hquoted]
  decide

/-- The declaration of an array is a single line. -/
theorem ArrayDecl.oneLine_toC {array : ArrayDecl} (h : array.isSpellable = true) :
    OneLine array.toC := by
  rw [ArrayDecl.isSpellable, Bool.and_eq_true, Bool.and_eq_true, List.all_eq_true] at h
  refine oneLine_element (oneLine_of_isName h.1.1) fun text htext => ?_
  obtain ⟨size, hsize, rfl⟩ := List.mem_map.1 htext
  have hspellable := h.2 size hsize
  rw [IntLit.isSpellable, Bool.and_eq_true, Bool.and_eq_true] at hspellable
  exact oneLine_of_isDigits hspellable.1.1

namespace Style

variable (style : Style)

/-- The lines of a call of a subroutine are single ones, in every style. -/
theorem allOneLine_gosubRows {target : JumpTarget} (h : target.isSpellable = true) :
    AllOneLine (style.gosubRows target) := by
  have htarget := target.oneLine_toC h
  have hdepth := oneLine_toString style.stackDepth
  unfold gosubRows callRows
  split
  all_goals
    simp only [allOneLine_cons, allOneLine_nil, oneLine_append, htarget, hdepth]
    decide

/-- The lines of the way back from a subroutine are single ones, in every style. -/
theorem allOneLine_retRows : AllOneLine style.retRows := by
  unfold retRows
  split
  all_goals
    simp only [allOneLine_cons, allOneLine_nil]
    decide

/-- The lines before the main function are single ones, in every style. -/
theorem allOneLine_preambleRows : AllOneLine style.preambleRows := by
  have hdepth := oneLine_toString style.stackDepth
  unfold preambleRows
  split
  all_goals
    simp only [allOneLine_cons, allOneLine_nil, oneLine_append, hdepth]
    decide

/-- The lines of either jump are single ones. -/
theorem allOneLine_jumpRows (kind : JumpKind) {target : JumpTarget}
    (h : target.isSpellable = true) : AllOneLine (style.jumpRows kind target) := by
  cases kind with
  | goto => exact allOneLine_singleton.2 (target.oneLine_toC h)
  | gosub => exact style.allOneLine_gosubRows h

/-- The lines of the cases of an `ON` are single ones, wherever the numbers start. -/
theorem allOneLine_caseRows (kind : JumpKind) (first : Nat) {targets : List JumpTarget}
    (h : ∀ target ∈ targets, target.isSpellable = true) :
    AllOneLine (style.caseRows kind first targets) := by
  induction targets generalizing first with
  | nil => exact allOneLine_nil
  | cons target targets ih =>
    rw [List.forall_mem_cons] at h
    simp only [caseRows, allOneLine_cons, allOneLine_append, allOneLine_map_deeper, allOneLine_nil,
      oneLine_append, oneLine_toString, style.allOneLine_jumpRows kind h.1, ih (first + 1) h.2]
    decide

/-- The lines of an `ON` are single ones. -/
theorem allOneLine_onRows {value : Expr} (kind : JumpKind) {targets : List JumpTarget}
    (hvalue : value.isLexical = true) (h : ∀ target ∈ targets, target.isSpellable = true) :
    AllOneLine (style.onRows value kind targets) := by
  simp only [onRows, allOneLine_cons, allOneLine_append, allOneLine_nil, oneLine_append,
    CText.oneLine_toC hvalue, style.allOneLine_caseRows kind 1 h]
  decide

/-- The head of a loop is a single line. -/
theorem oneLine_loopHead {counter : String} {first last step : Expr}
    (hcounter : isName counter = true) (hfirst : first.isLexical = true)
    (hlast : last.isLexical = true) (hstep : step.isLexical = true) :
    OneLine (style.loopHead counter first last step) := by
  have hname := oneLine_of_isName hcounter
  have hcondition : OneLine (style.loopCondition counter last.toC step.toC) := by
    unfold loopCondition
    split
    all_goals
      simp only [oneLine_append, hname, CText.oneLine_toC hlast, CText.oneLine_toC hstep]
      decide
  unfold loopHead
  simp only [oneLine_append, hname, hcondition, CText.oneLine_toC hfirst, CText.oneLine_toC hstep]
  decide

end Style

/-- The lines of some statements are single ones if those of each statement are. -/
theorem Statement.allOneLine_listRows {style : Style} {statements : List Statement}
    (h : ∀ statement ∈ statements, AllOneLine (statement.rows style)) :
    AllOneLine (Statement.listRows style statements) := by
  induction statements with
  | nil => exact allOneLine_nil
  | cons head tail ih =>
    rw [List.forall_mem_cons] at h
    simp [Statement.listRows, h.1, ih h.2]

/-- The lines of an arm, and the one that ends it, are single ones if those of its statements are.
-/
theorem Branch.allOneLine_rows (style : Style) {head : String} {arm : Branch}
    (hhead : OneLine head) (htargets : ∀ target ∈ arm.targets, target.isSpellable = true)
    (h : ∀ statement ∈ arm.statements, AllOneLine (statement.rows style)) :
    AllOneLine (arm.rows style head) ∧ AllOneLine arm.closing := by
  cases arm with
  | goto target =>
    have htext := target.oneLine_toC (htargets target List.mem_cons_self)
    simp only [rows, closing, allOneLine_cons, allOneLine_nil, oneLine_append, hhead, htext]
    decide
  | block statements =>
    have hrows : AllOneLine (Statement.listRows style statements) :=
      Statement.allOneLine_listRows h
    simp only [rows, closing, allOneLine_cons, allOneLine_nil, allOneLine_map_deeper,
      oneLine_append, hhead, hrows]
    decide

/-- No line of a statement has a line feed in it. -/
theorem Statement.allOneLine_rows {statement : Statement} (style : Style)
    (h : statement.IsLexical) : AllOneLine (statement.rows style) := by
  -- the statements in it have such lines, and its own are names and literals between fixed texts
  induction statement using Statement.induction with
  | step statement ih =>
    have hnamed := h.isNamed
    have hheads := h.heads
    have hoperands := h.operands
    have hchildren child hchild := ih child hchild (h.child child hchild)
    have hlabel {name : String} (hname : OneLine name) : OneLine (CText.label name ++ ":;") :=
      oneLine_append.2 ⟨oneLine_label hname, by decide⟩
    cases statement with
    | lineNumber name data loc =>
      rw [isNamed, Bool.and_eq_true] at hnamed
      cases data with
      | none => exact allOneLine_singleton.2 (hlabel (oneLine_of_isDigits hnamed.1))
      | some data =>
        obtain ⟨rfl, hvalue⟩ : data.name = name ∧ isPayload data.value = true := by
          simpa using hnamed.2
        exact allOneLine_singleton.2 (DataItem.oneLine_toC hnamed.1 hvalue)
    | label name loc =>
      have htext := hlabel (oneLine_of_isName hnamed)
      have hbelow : AllOneLine [⟨0, CText.separator⟩, ⟨0, CText.label name ++ ":;"⟩] :=
        allOneLine_cons.2 ⟨by decide, allOneLine_singleton.2 htext⟩
      exact allOneLine_cons.2 ⟨by decide, hbelow⟩
    | dim arrays loc =>
      have harrays : OneLine (String.intercalate ", " (arrays.map (·.toC))) := by
        refine oneLine_intercalate fun text htext => ?_
        obtain ⟨array, harray, rfl⟩ := List.mem_map.1 htext
        exact array.oneLine_toC (List.all_eq_true.1 hnamed array harray)
      refine allOneLine_singleton.2 ?_
      simp only [oneLine_append, harrays]
      decide
    | cond condition consequence alternative loc =>
      obtain ⟨htargets, htargets'⟩ := List.forall_mem_append.1 (List.all_eq_true.1 hnamed)
      obtain ⟨hfirst, hsecond⟩ := List.forall_mem_append.1 hchildren
      have hcondition := CText.oneLine_toC (hoperands condition List.mem_cons_self)
      have hhead : OneLine ("if (" ++ condition.toC ++ ")") := by
        simp only [oneLine_append, hcondition]
        decide
      obtain ⟨hrows, hclosing⟩ := Branch.allOneLine_rows style hhead htargets hfirst
      refine allOneLine_append.2 ⟨hrows, ?_⟩
      cases alternative with
      | none => exact hclosing
      | some arm =>
        have helse : OneLine consequence.elseHead := by
          cases consequence <;> rw [Branch.elseHead] <;> decide
        exact allOneLine_append.2 (Branch.allOneLine_rows style helse (by simpa using htargets')
          (by simpa using hsecond))
    | on value kind targets loc =>
      exact style.allOneLine_onRows kind (hoperands value List.mem_cons_self)
        (List.all_eq_true.1 hnamed)
    | goto target loc =>
      have htarget := List.all_eq_true.1 hnamed target List.mem_cons_self
      exact allOneLine_singleton.2 (target.oneLine_toC htarget)
    | gosub target loc =>
      exact style.allOneLine_gosubRows (List.all_eq_true.1 hnamed target List.mem_cons_self)
    | ret loc => exact style.allOneLine_retRows
    | loop counter first last step body loc =>
      have hhead := style.oneLine_loopHead hnamed (hoperands first (by simp [operands]))
        (hoperands last (by simp [operands])) (hoperands step (by simp [operands]))
      have hbody : AllOneLine (listRows style body) := allOneLine_listRows hchildren
      refine allOneLine_cons.2 ⟨oneLine_append.2 ⟨hhead, by decide⟩, ?_⟩
      exact allOneLine_append.2 ⟨allOneLine_map_deeper.2 hbody, allOneLine_singleton.2 (by decide)⟩
    | assign name indices value loc =>
      have htarget := CText.oneLine_toC (hheads _ List.mem_cons_self)
      have hvalue := CText.oneLine_toC (hoperands value List.mem_cons_self)
      rw [Expr.toC] at htarget
      refine allOneLine_singleton.2 ?_
      simp only [oneLine_append, htarget, hvalue]
      decide
    | call function arguments loc =>
      have hcall := CText.oneLine_toC (hheads _ List.mem_cons_self)
      exact allOneLine_singleton.2 (oneLine_append.2 ⟨hcall, by decide⟩)

/-- The lines of a program are single ones, whatever listing it comes from. -/
theorem allOneLine_programRows (style : Style) (bytes : List UInt8) :
    AllOneLine (programRows style (parse bytes).program) := by
  have hrows : AllOneLine (Statement.listRows style (parse bytes).program) :=
    Statement.allOneLine_listRows fun _ hstatement =>
      Statement.allOneLine_rows style (isLexical_of_mem_parse hstatement)
  unfold programRows
  split
  · simp only [allOneLine_append, allOneLine_cons, allOneLine_nil, allOneLine_map_deeper, hrows,
      style.allOneLine_preambleRows]
    decide
  · exact hrows

end LineBasic
