import LineBasic.Proofs.Loops
import LineBasic.Proofs.Spelling.Lexical
import LineBasic.Proofs.Spelling.Program.Text

/-!
# Names in programs

Line numbers, labels, jumps, declarations, data and counters hold names and numerals of tokens as
they are (`isNamed_of_mem_program`), whether or not something is wrong with the listing. What
expressions hold is said in `Grammar.passes_isLexical`, and the name that a statement starts with is
part of that.
-/

namespace LineBasic

open Cursor Parse

/-! ## Characters of names -/

theorem isDigit_of_mem {text : String} (h : isDigits text = true) {c : Char}
    (hc : c ∈ text.toList) : c.isDigit = true :=
  List.all_eq_true.1 (Bool.and_eq_true _ _ ▸ h).2 c hc

/-- A number within a line consists of digits and of points. -/
theorem isDigit_or_of_mem {text : String} (h : isNumeral text = true) {c : Char}
    (hc : c ∈ text.toList) : c.isDigit = true ∨ c = '.' := by
  rcases isDigits_or_exists_of_isNumeral h with hdigits |
    ⟨whole, fraction, htext, -, hwhole, hfraction⟩
  · exact .inl (isDigit_of_mem hdigits hc)
  · rw [htext, List.mem_append, List.mem_cons] at hc
    rcases hc with hc | rfl | hc
    · exact .inl (hwhole c hc)
    · exact .inr rfl
    · exact .inl (hfraction c hc)

/-- A name consists of letters and digits, and of dollar signs. -/
theorem isAlphanum_of_mem {name : String} (h : isName name = true) {c : Char}
    (hc : c ∈ name.toList) : c.isAlphanum = true ∨ c = '$' := by
  rw [isName, Bool.and_eq_true] at h
  obtain ⟨head, word, mark, hchars, hhead, hword, hmark⟩ := Lexeme.exists_of_isWordText h.1
  rw [hchars, List.mem_cons, List.mem_append] at hc
  rcases hc with rfl | hc | hc
  · exact .inl (by rw [Char.isAlphanum, hhead, Bool.true_or])
  · exact .inl (hword c hc)
  · rcases hmark with rfl | rfl
    · cases hc
    · exact .inr (List.mem_singleton.1 hc)

/-! ## Names of a statement -/

/-- The label that an arm jumps to, if the arm is a bare label. -/
def Branch.targets : Branch → List JumpTarget
  | goto target => [target]
  | block _ => []

namespace Statement

/-- What a statement itself jumps to. Jumps of the statements in it are left out. -/
def targets : Statement → List JumpTarget
  | cond _ consequence alternative _ =>
    consequence.targets ++ alternative.toList.flatMap Branch.targets
  | on _ _ targets _ => targets
  | goto target _ => [target]
  | gosub target _ => [target]
  | _ => []

/-- Whether the names and numerals that a statement holds by itself are such as tokens have. Those
of its expressions and of the statements in it are left out. -/
def isNamed : Statement → Bool
  | lineNumber name data _ =>
    isDigits name && data.all fun item => item.name == name && isPayload item.value
  | label name _ => isName name
  | dim arrays _ => arrays.all ArrayDecl.isSpellable
  | loop counter _ _ _ _ _ => isName counter
  | statement => statement.targets.all JumpTarget.isSpellable

/-- The names of the statement and of all statements in it are such as tokens have. -/
def AllNamed (statement : Statement) : Prop :=
  ∀ node ∈ statement.nodes, node.isNamed = true

/-- The statements at any depth of a list are those of its members. -/
theorem mem_listNodes {statements : List Statement} {node : Statement} :
    node ∈ listNodes statements ↔ ∃ statement ∈ statements, node ∈ statement.nodes := by
  induction statements with
  | nil => simp [listNodes]
  | cons head tail ih => simp [listNodes, ih]

/-- A statement comes first, and then those in it. -/
theorem nodes_eq (statement : Statement) :
    statement.nodes = statement :: listNodes statement.children := by
  cases statement with
  | cond condition consequence alternative loc =>
    rw [nodes, children, listNodes_append]
    cases consequence <;> cases alternative with
      | none => rfl
      | some arm =>
        cases arm <;> simp [Branch.nodes, Branch.elseNodes, Branch.statements, listNodes]
  | _ => rfl

theorem mem_nodes_self (statement : Statement) : statement ∈ statement.nodes := by
  rw [nodes_eq]
  exact List.mem_cons_self

/-- A statement has names of tokens throughout if it has and the statements in it have. -/
theorem AllNamed.intro {statement : Statement} (h : statement.isNamed = true)
    (hchildren : ∀ child ∈ statement.children, child.AllNamed) : statement.AllNamed := by
  rw [AllNamed, nodes_eq, List.forall_mem_cons]
  refine ⟨h, fun node hnode => ?_⟩
  obtain ⟨child, hchild, hnode⟩ := mem_listNodes.1 hnode
  exact hchildren child hchild node hnode

end Statement

/-! ## Names of tokens -/

/-- The literal of the token is one that its kind allows. -/
def Token.IsAllowed (token : Token) : Prop :=
  token.kind.allows token.literal = true

namespace Token.IsAllowed

variable {token : Token} (h : token.IsAllowed)

include h

theorem isName (hkind : token.kind = .ident) : LineBasic.isName token.literal = true := by
  rw [IsAllowed, hkind] at h
  exact h

theorem isNumeral (hkind : token.kind = .num) : LineBasic.isNumeral token.literal = true := by
  rw [IsAllowed, hkind] at h
  exact h

theorem isDigits (hkind : token.kind = .lineNo) : LineBasic.isDigits token.literal = true := by
  rw [IsAllowed, hkind] at h
  exact h

/-- The literal of data is a payload. -/
theorem isPayload (hkind : token.kind = .word .data) :
    LineBasic.isPayload token.literal = true := by
  rw [IsAllowed, hkind] at h
  exact h

end Token.IsAllowed

/-! ## The rules of the grammar -/

namespace Grammar

variable {expr : Nat → Parse Expr} {inner : Cursor → Option Statement × Cursor}

/-- The label of a jump is the literal of a token. -/
theorem jumpTarget_named :
    Gives Token.IsAllowed jumpTarget fun target => target.isSpellable = true := by
  refine Gives.peek.bind fun next _ => ?_
  split
  · refine Gives.advance.bind fun _ _ => (Gives.expect (by decide)).bind fun name hname => .pure ?_
    rw [JumpTarget.isSpellable, hname.2.isName hname.1, Bool.or_true]
  · refine (Gives.expect (by decide)).bind fun number hnumber => .pure ?_
    rw [JumpTarget.isSpellable, hnumber.2.isNumeral hnumber.1, Bool.true_or]

/-- The size of an array is written as a token is. -/
theorem arraySize_named :
    Gives Token.IsAllowed arraySize fun size => size.isSpellable = true := by
  refine (Gives.expect (by decide)).bind fun _ _ cursor size last hrun hall => ?_
  rw [integer_apply] at hrun
  split at hrun
  next value hvalue =>
    cases hrun
    exact ⟨hall, isSpellable_of_integerValue? _ hvalue⟩
  next => cases hrun

/-- The name and the sizes of an array are literals of tokens. -/
theorem arrayDecl_named :
    Gives Token.IsAllowed arrayDecl fun array => array.isSpellable = true := by
  refine (Gives.expect (by decide)).bind fun name hname => (Gives.expect (by decide)).bind
    fun _ _ => (Gives.commaList arraySize_named).bind fun sizes hsizes =>
      (Gives.expect (by decide)).bind fun _ _ => ?_
  intro cursor array last hrun hall
  -- the declaration goes into the tables and changes nothing else
  simp only [bind_eq_ok, modify_apply] at hrun
  obtain ⟨_, _, ⟨⟩, ⟨⟩⟩ := hrun
  refine ⟨hall.of_suffix List.suffix_rfl, ?_⟩
  simpa [ArrayDecl.isSpellable, hname.2.isName hname.1, hsizes.1] using hsizes.2

section Rules

variable {cursor last : Cursor} {statement : Statement}

/-- A line number and its data are literals of tokens. -/
theorem lineNumber_named (hkind : cursor.current.kind = .lineNo) (h : cursor.All Token.IsAllowed)
    (hrun : lineNumber cursor = .ok statement last) :
    last.All Token.IsAllowed ∧ statement.AllNamed := by
  refine ⟨h.of_suffix (((lineNumber_keeps growth_leads.toDrift).of_ok hrun).tokens), ?_⟩
  have hdigits := (h.current (by rw [hkind]; decide)).isDigits hkind
  simp only [lineNumber, bind_eq_ok, current_apply, peek_apply] at hrun
  obtain ⟨_, _, ⟨⟩, _, _, ⟨⟩, hrun⟩ := hrun
  split at hrun
  next hdata =>
    simp only [bind_eq_ok, advance_apply, skipSeparator_apply] at hrun
    obtain ⟨_, _, ⟨⟩, _, _, ⟨⟩, ⟨⟩⟩ := hrun
    have hpayload := (h.advance.current (by rw [current_advance, hdata]; decide)).isPayload hdata
    rw [current_advance] at hpayload
    exact .intro (by simp [Statement.isNamed, hdigits, hpayload]) (by simp [Statement.children])
  next =>
    cases hrun
    exact .intro (by simp [Statement.isNamed, hdigits]) (by simp [Statement.children])

/-- The name of a label is the literal of a token. -/
theorem label_named : Gives Token.IsAllowed label Statement.AllNamed :=
  Gives.current.bind fun _ _ => (Gives.expect (by decide)).bind fun _ hname =>
    Gives.skipSeparator.bind fun _ _ => .pure (.intro (hname.2.isName hname.1)
      (by simp [Statement.children]))

/-- The arrays of a `DIM` have names and sizes of tokens. -/
theorem dim_named : Gives Token.IsAllowed dim Statement.AllNamed :=
  Gives.current.bind fun _ _ => (Gives.commaList arrayDecl_named).bind fun _ harrays =>
    Gives.skipSeparator.bind fun _ _ => .pure (.intro (List.all_eq_true.2 harrays.2)
      (by simp [Statement.children]))

/-- The label of a jump is that of a token. -/
theorem goto_named : Gives Token.IsAllowed goto Statement.AllNamed :=
  Gives.current.bind fun _ _ => jumpTarget_named.bind fun _ htarget =>
    Gives.skipSeparator.bind fun _ _ => .pure (.intro
      (List.all_eq_true.2 (List.forall_mem_singleton.2 htarget)) (by simp [Statement.children]))

/-- The label of a jump to a subroutine is that of a token. -/
theorem gosub_named : Gives Token.IsAllowed gosub Statement.AllNamed :=
  Gives.current.bind fun _ _ => jumpTarget_named.bind fun _ htarget =>
    Gives.skipSeparator.bind fun _ _ => .pure (.intro
      (List.all_eq_true.2 (List.forall_mem_singleton.2 htarget)) (by simp [Statement.children]))

theorem ret_named : Gives Token.IsAllowed ret Statement.AllNamed :=
  Gives.current.bind fun _ _ => Gives.skipSeparator.bind fun _ _ =>
    .pure (.intro rfl (by simp [Statement.children]))

/-- An arm holds statements with such names, and a bare label is a statement of its own. -/
theorem branch_named (hinner : StepFinds Token.IsAllowed Statement.AllNamed inner)
    (ends : Token.Kind → Bool) :
    Gives Token.IsAllowed (branch inner ends) fun arm =>
      (∀ target ∈ arm.targets, target.isSpellable = true) ∧
        ∀ statement ∈ arm.statements, statement.AllNamed := by
  refine Gives.current.bind fun token _ => Gives.peek.bind fun next _ => ?_
  split
  · refine jumpTarget_named.bind fun target htarget => Gives.skipSeparator.bind fun _ _ =>
      (block_finds hinner ends).bind fun statements hrest => ?_
    split
    · exact .pure ⟨List.forall_mem_singleton.2 htarget, by simp [Branch.statements]⟩
    · refine .pure ⟨by simp [Branch.targets], List.forall_mem_cons.2 ⟨.intro ?_ ?_, hrest⟩⟩
      · exact List.all_eq_true.2 (List.forall_mem_singleton.2 htarget)
      · simp [Statement.children]
  · exact (block_finds hinner ends).bind fun _ hstatements =>
      .pure ⟨by simp [Branch.targets], hstatements⟩

variable (hkeeps : ∀ power, (expr power).Keeps Leads)

include hkeeps

theorem nextExpression_leads (power : Nat) :
    Gives Token.IsAllowed (nextExpression expr power) fun _ => True :=
  .of_leads (nextExpression_keeps growth_leads.toDrift hkeeps power)

/-- The names in the arms of an `IF` are those of tokens, and so is a label that is an arm. -/
theorem cond_named (hinner : StepFinds Token.IsAllowed Statement.AllNamed inner) :
    Gives Token.IsAllowed (cond expr inner) Statement.AllNamed := by
  refine Gives.current.bind fun token _ =>
    (nextExpression_leads hkeeps _).bind fun condition _ =>
    (Gives.expect (by decide)).bind fun _ _ =>
    (branch_named hinner _).bind fun consequence hconsequence => Gives.peek.bind fun next _ => ?_
  -- with an `ELSE` next there is a second arm
  split
  · refine Gives.advance.bind fun _ _ => (branch_named hinner _).bind fun alternative halt =>
      .pure (.intro ?_ ?_)
    · simpa [Statement.isNamed, Statement.targets, or_imp, forall_and] using
        ⟨hconsequence.1, halt.1⟩
    · simpa [Statement.children, or_imp, forall_and] using ⟨hconsequence.2, halt.2⟩
  · refine .pure (.intro ?_ ?_)
    · simpa [Statement.isNamed, Statement.targets] using hconsequence.1
    · simpa [Statement.children] using hconsequence.2

/-- The labels of an `ON` are those of tokens. -/
theorem on_named : Gives Token.IsAllowed (on expr) Statement.AllNamed :=
  Gives.current.bind fun _ _ => (nextExpression_leads hkeeps _).bind fun _ _ =>
    (Gives.of_leads (jumpKind_keeps growth_leads.toDrift)).bind fun _ _ =>
    (Gives.commaList jumpTarget_named).bind fun _ htargets => Gives.skipSeparator.bind fun _ _ =>
      .pure (.intro (List.all_eq_true.2 htargets.2) (by simp [Statement.children]))

/-- The counter of a loop and the names in its body are those of tokens. -/
theorem loop_named (hinner : StepFinds Token.IsAllowed Statement.AllNamed inner) :
    Gives Token.IsAllowed (loop expr inner) Statement.AllNamed := by
  have hdrift := growth_leads.toDrift
  exact Gives.current.bind fun _ _ => (Gives.expect (by decide)).bind fun counter hcounter =>
    (Gives.expect (by decide)).bind fun _ _ => (nextExpression_leads hkeeps _).bind fun _ _ =>
    (Gives.expect (by decide)).bind fun _ _ => (nextExpression_leads hkeeps _).bind fun _ _ =>
    (Gives.of_leads (loopStep_keeps hdrift hkeeps _)).bind fun _ _ =>
    (Gives.of_leads (loopHeadEnd_keeps hdrift)).bind fun _ _ =>
    (block_finds hinner _).bind fun _ hbody =>
    (Gives.of_leads (loopEnd_keeps growth_leads _)).bind fun _ _ =>
      .pure (.intro (hcounter.2.isName hcounter.1) hbody)

/-- A statement that starts with a name holds no other names by itself. -/
theorem namedStatement_named :
    Gives Token.IsAllowed (namedStatement expr) Statement.AllNamed := by
  have hdrift := growth_leads.toDrift
  refine .of_keeps (namedStatement_keeps hdrift hkeeps) fun cursor statement last hrun => ?_
  have hassign {cursor : Cursor} {target : Token} {indices : List Expr}
      (hrun : assignTo expr target indices cursor = .ok statement last) : statement.AllNamed := by
    simp only [assignTo, bind_eq_ok] at hrun
    obtain ⟨_, _, -, _, _, -, _, _, -, ⟨⟩⟩ := hrun
    exact .intro rfl (by simp [Statement.children])
  rw [namedStatement_apply] at hrun
  -- a variable, an element or a call, and the arguments of a call none, in parentheses or bare
  split at hrun
  · exact hassign hrun
  · split at hrun
    · simp only [assignElement, bind_eq_ok] at hrun
      obtain ⟨_, _, -, _, _, -, _, _, -, hrun⟩ := hrun
      exact hassign hrun
    · simp only [call, bind_eq_ok] at hrun
      obtain ⟨_, _, -, _, _, -, hrun⟩ := hrun
      have hcall {cursor : Cursor} {token : Token} {arguments : List Expr}
          (hrun : (do
            skipSeparator
            return Statement.call token.literal arguments token.loc) cursor = .ok statement last) :
          statement.AllNamed := by
        simp only [bind_eq_ok] at hrun
        obtain ⟨_, _, -, ⟨⟩⟩ := hrun
        exact .intro rfl (by simp [Statement.children])
      split at hrun
      · exact hcall hrun
      · split at hrun
        · simp only [bind_eq_ok] at hrun
          obtain ⟨_, _, -, _, _, -, hrun⟩ := hrun
          exact hcall (bind_eq_ok.2 hrun)
        · obtain ⟨_, _, -, hrun⟩ := bind_eq_ok.1 hrun
          exact hcall hrun

/-- Whatever a rule finds has names of tokens throughout. -/
theorem statementRule_named (hinner : StepFinds Token.IsAllowed Statement.AllNamed inner) :
    Gives Token.IsAllowed (statementRule expr inner) fun found =>
      ∀ statement ∈ found, statement.AllNamed := by
  intro cursor found last hrun hall
  rw [statementRule_apply] at hrun
  split at hrun
  · cases hrun
    exact ⟨(Gives.skipSeparator cursor _ _ rfl hall).1, by simp⟩
  · cases hrun
    exact ⟨hall, by simp⟩
  next hkind =>
    obtain ⟨statement, hline, rfl⟩ := map_eq_ok.1 hrun
    obtain ⟨hlast, hnamed⟩ := lineNumber_named hkind hall hline
    exact ⟨hlast, by simpa using hnamed⟩
  · exact label_named.some _ _ _ hrun hall
  · exact dim_named.some _ _ _ hrun hall
  · exact (cond_named hkeeps hinner).some _ _ _ hrun hall
  · exact (on_named hkeeps).some _ _ _ hrun hall
  · exact goto_named.some _ _ _ hrun hall
  · exact gosub_named.some _ _ _ hrun hall
  · exact ret_named.some _ _ _ hrun hall
  · exact (loop_named hkeeps hinner).some _ _ _ hrun hall
  · exact (namedStatement_named hkeeps).some _ _ _ hrun hall
  · cases hrun
  · cases hrun
  · cases hrun

end Rules

/-- The names of a statement that the parser finds are such as tokens have. -/
theorem statement_named (levels : Nat) :
    StepFinds Token.IsAllowed Statement.AllNamed (statement levels) := by
  have hdrift := growth_leads.toDrift
  induction levels with
  | zero =>
    refine recover_finds (tooDeep_keeps hdrift) ?_
    intro cursor found last hrun
    cases hrun
  | succ levels ih =>
    have hexpr := expression_keeps hdrift levels
    exact recover_finds
      (statementRule_keeps growth_leads hexpr (statement_keeps growth_leads levels))
      (statementRule_named hexpr ih)

end Grammar

/-! ## Programs -/

/-- The names and numerals of the statements of a program are such as tokens have. -/
theorem isNamed_of_mem_program {bytes : List UInt8} {node : Statement}
    (h : node ∈ Statement.listNodes (parse bytes).program) : node.isNamed = true := by
  obtain ⟨statement, hstatement, hnode⟩ := Statement.mem_listNodes.1 h
  exact program_found (Grammar.statement_named maxNesting) bytes (allows_of_mem_tokenize bytes)
    statement hstatement node hnode

end LineBasic
