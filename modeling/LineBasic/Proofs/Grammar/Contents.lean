import LineBasic.Proofs.Grammar.Drift
import LineBasic.Proofs.Token.Order

/-!
# What statements are made of

A property that the parser gives to every expression it finds, it gives to all expressions of a
program, whether or not something is wrong with the listing (`program_within`). The property may
depend on the levels that are left where the expression stands, and on a property that all tokens
have.

The rules of the grammar are taken one by one with `Parse.Gives`, which says what values a parser
finds, as `Parse.Keeps` says where it goes.
-/

namespace LineBasic

open Cursor Parse

/-! ## Parts of a statement -/

/-- The statements of an arm. -/
def Branch.statements : Branch → List Statement
  | goto _ => []
  | block statements => statements

namespace Statement

/-- What a statement that starts with a name says of it, as an expression: the variable that is
assigned to, or the call. -/
def heads : Statement → List Expr
  | assign name indices _ loc => [.var name indices loc]
  | call function arguments loc => [.call function arguments loc]
  | _ => []

/-- The expressions that stand in a statement behind what it starts with. -/
def operands : Statement → List Expr
  | cond condition _ _ _ => [condition]
  | on value _ _ _ => [value]
  | loop _ first last step _ _ => [first, last, step]
  | assign _ _ value _ => [value]
  | _ => []

/-- The statements that stand in a statement. -/
def children : Statement → List Statement
  | cond _ consequence alternative _ =>
    consequence.statements ++ alternative.toList.flatMap Branch.statements
  | loop _ _ _ _ body _ => body
  | _ => []

/-- A property that a statement has if all statements in it do. -/
theorem induction {motive : Statement → Prop}
    (step : ∀ statement : Statement, (∀ child ∈ statement.children, motive child) →
      motive statement) (statement : Statement) : motive statement := by
  have hleaf (statement : Statement) (h : statement.children = []) : motive statement :=
    step statement (by simp [h])
  exact @Statement.rec (fun arm => ∀ child ∈ arm.statements, motive child) motive
    (fun statements => ∀ child ∈ statements, motive child)
    (fun arm => ∀ child ∈ arm.toList.flatMap Branch.statements, motive child)
    -- the two kinds of arms
    (fun _ => by simp [Branch.statements]) (fun _ h => h)
    -- the statements in their order; only `IF` and a loop have others in them
    (fun _ _ _ => hleaf _ rfl) (fun _ _ => hleaf _ rfl) (fun _ _ => hleaf _ rfl)
    (fun _ _ _ _ hconsequence halternative =>
      step _ (List.forall_mem_append.2 ⟨hconsequence, halternative⟩))
    (fun _ _ _ _ => hleaf _ rfl) (fun _ _ => hleaf _ rfl) (fun _ _ => hleaf _ rfl)
    (fun _ => hleaf _ rfl) (fun _ _ _ _ _ _ hbody => step _ hbody) (fun _ _ _ _ => hleaf _ rfl)
    (fun _ _ _ => hleaf _ rfl)
    -- lists, and an arm that may be missing
    (by simp) (fun _ _ hhead htail => List.forall_mem_cons.2 ⟨hhead, htail⟩) (by simp)
    (fun _ harm => by simpa using harm) statement

/-- The expressions of a statement, and of those in it, have the property at the levels that are
left where they stand. A name that starts a statement stands at the level of the statement. -/
inductive Within (P : Nat → Expr → Prop) : Nat → Statement → Prop
  | intro {levels : Nat} {statement : Statement} (heads : ∀ e ∈ statement.heads, P (levels + 1) e)
      (operands : ∀ e ∈ statement.operands, P levels e)
      (children : ∀ child ∈ statement.children, Within P levels child) :
      Within P (levels + 1) statement

variable {P : Nat → Expr → Prop} {levels : Nat} {statement : Statement}

/-- A statement in which no expression and no statement stands. -/
theorem Within.of_nil (hheads : statement.heads = []) (hoperands : statement.operands = [])
    (hchildren : statement.children = []) : Within P (levels + 1) statement := by
  refine .intro ?_ ?_ ?_
  · simp [hheads]
  · simp [hoperands]
  · simp [hchildren]

/-- A statement takes a level, so there is one where it stands. -/
theorem Within.exists_succ (h : Within P levels statement) : ∃ fewer, levels = fewer + 1 := by
  cases h
  exact ⟨_, rfl⟩

end Statement

/-! ## Values of parsers -/

/-- All tokens left have the property. -/
def Cursor.All (Q : Token → Prop) (cursor : Cursor) : Prop :=
  ∀ token ∈ cursor.tokens, Q token

namespace Cursor

variable {Q : Token → Prop} {cursor later : Cursor}

theorem All.of_suffix (h : cursor.All Q) (hsuffix : later.tokens <:+ cursor.tokens) : later.All Q :=
  fun token htoken => h token (hsuffix.mem htoken)

theorem All.current (h : cursor.All Q) (hkind : cursor.current.kind ≠ .eof) : Q cursor.current :=
  h _ (by rw [tokens_eq_cons hkind]; exact List.mem_cons_self)

theorem All.advance (h : cursor.All Q) : cursor.advance.All Q :=
  h.of_suffix (List.tail_suffix _)

end Cursor

namespace Parse

variable {α β : Type} {Q : Token → Prop} {x : Parse α} {post : α → Prop}

/-- Among tokens that all have the property `Q`, the parser only finds values with the property
`post`, and it leaves such tokens. -/
def Gives (Q : Token → Prop) (x : Parse α) (post : α → Prop) : Prop :=
  ∀ cursor value last, x cursor = .ok value last → cursor.All Q → last.All Q ∧ post value

/-- A parser that only goes on leaves only tokens that it found. -/
theorem Gives.of_keeps (h : x.Keeps Leads)
    (hvalue : ∀ cursor value last, x cursor = .ok value last → post value) : Gives Q x post :=
  fun _ _ _ hrun hall => ⟨hall.of_suffix (h.of_ok hrun).tokens, hvalue _ _ _ hrun⟩

theorem Gives.of_leads (h : x.Keeps Leads) : Gives Q x fun _ => True :=
  .of_keeps h fun _ _ _ _ => trivial

/-- A value with the property is given as it is. -/
theorem Gives.pure {value : α} (h : post value) : Gives Q (Pure.pure value : Parse α) post := by
  intro cursor value last hrun hall
  cases hrun
  exact ⟨hall, h⟩

/-- A sequence gives what its second part gives for each value of the first one. -/
theorem Gives.bind {f : α → Parse β} {next : β → Prop} (hx : Gives Q x post)
    (hf : ∀ value, post value → Gives Q (f value) next) : Gives Q (x >>= f) next := by
  intro cursor value last hrun hall
  obtain ⟨first, middle, hfirst, hlast⟩ := bind_eq_ok.1 hrun
  obtain ⟨hmiddle, hpost⟩ := hx _ _ _ hfirst hall
  exact hf first hpost _ _ _ hlast hmiddle

/-- A parser whose values are changed gives what the changed values are. -/
theorem Gives.map {f : α → β} {next : β → Prop} (hx : Gives Q x post)
    (hf : ∀ value, post value → next (f value)) : Gives Q (f <$> x) next := by
  rw [map_eq_pure_bind]
  exact hx.bind fun value hvalue => .pure (hf value hvalue)

theorem Gives.some (hx : Gives Q x post) :
    Gives Q (Option.some <$> x) fun found => ∀ value ∈ found, post value :=
  hx.map fun _ hvalue => by simpa using hvalue

/-- The current token has the property that all have, unless it is the end. -/
theorem Gives.current : Gives Q Parse.current fun token => token.kind ≠ .eof → Q token := by
  intro cursor value last hrun hall
  cases hrun
  exact ⟨hall, hall.current⟩

theorem Gives.peek : Gives Q Parse.peek fun _ => True := by
  intro cursor value last hrun hall
  cases hrun
  exact ⟨hall, trivial⟩

theorem Gives.advance : Gives Q Parse.advance fun _ => True := by
  intro cursor value last hrun hall
  cases hrun
  exact ⟨hall.advance, trivial⟩

/-- A parser that fails gives nothing. -/
theorem Gives.fail (cause : Cause) (loc : Location) :
    Gives Q (Parse.fail cause loc : Parse α) post := by
  intro cursor value last hrun
  cases hrun

theorem Gives.skipSeparator : Gives Q Parse.skipSeparator fun _ => True :=
  .of_leads (.skipSeparator growth_leads.toDrift)

/-- A token that was asked for is of the kind and has the property. -/
theorem Gives.expect {kind : Token.Kind} (hkind : kind ≠ .eof) :
    Gives Q (Parse.expect kind) fun token => token.kind = kind ∧ Q token := by
  intro cursor value last hrun hall
  obtain ⟨hpeek, rfl, rfl⟩ := expect_eq_ok.1 hrun
  refine ⟨hall.advance, hpeek, hall.advance.current ?_⟩
  rw [current_advance, hpeek]
  exact hkind

/-- A list with commas gives at least one value, and each with the property. -/
theorem Gives.commaList (h : Gives Q x post) :
    Gives Q (Parse.commaList x) fun values => values ≠ [] ∧ ∀ value ∈ values, post value := by
  intro cursor values last hlist hall
  have hrun := commaList_run hlist
  clear hlist
  -- along the run, the tokens behind each item being among those before it
  induction hrun with
  | one hvalue =>
    obtain ⟨hlast, hpost⟩ := h _ _ _ hvalue hall
    exact ⟨hlast, List.cons_ne_nil _ _, List.forall_mem_singleton.2 hpost⟩
  | cons hvalue _ _ ih =>
    obtain ⟨hmiddle, hpost⟩ := h _ _ _ hvalue hall
    obtain ⟨hlast, -, htail⟩ := ih hmiddle.advance
    exact ⟨hlast, List.cons_ne_nil _ _, List.forall_mem_cons.2 ⟨hpost, htail⟩⟩

end Parse

/-! ## The rules of the grammar -/

namespace Grammar

variable {Q : Token → Prop} {P : Nat → Expr → Prop} {expr : Nat → Parse Expr} {post : Expr → Prop}

section Expressions

/-- The next expression has the property that the parser gives. -/
theorem nextExpression_gives (hexpr : ∀ power, Gives Q (expr power) post) (power : Nat) :
    Gives Q (nextExpression expr power) post := by
  refine Gives.peek.bind fun next _ => ?_
  split
  · exact .fail _ _
  · exact Gives.advance.bind fun _ _ => hexpr power

/-- Each expression of a list has the property that the parser gives. -/
theorem expressionList_gives (hexpr : ∀ power, Gives Q (expr power) post) :
    Gives Q (expressionList expr) fun expressions => ∀ e ∈ expressions, post e :=
  fun cursor expressions last hrun hall =>
    (Gives.commaList (nextExpression_gives hexpr _) cursor expressions last hrun hall).imp_right
      And.right

/-- Each subscript has the property that the parser gives. -/
theorem subscripts_gives (hexpr : ∀ power, Gives Q (expr power) post) :
    Gives Q (subscripts expr) fun expressions => ∀ e ∈ expressions, post e :=
  (expressionList_gives hexpr).bind fun _ hlist =>
    (Gives.expect (by decide)).bind fun _ _ => .pure hlist

/-- Each argument has the property that the parser gives. -/
theorem arguments_gives (hexpr : ∀ power, Gives Q (expr power) post) :
    Gives Q (arguments expr) fun expressions => ∀ e ∈ expressions, post e := by
  refine Gives.peek.bind fun next _ => ?_
  split
  · exact Gives.advance.bind fun _ _ => .pure (by simp)
  · exact subscripts_gives hexpr

end Expressions

/-- A property that the parser gives to the expressions it finds, and to those that a statement
starts with. The step of a loop that is not written counts as found where the bounds are. -/
structure Passes (Q : Token → Prop) (P : Nat → Expr → Prop) : Prop where
  found : ∀ levels power, Gives Q (expression levels power) (P levels)
  var : ∀ levels token indices, token.kind = .ident → Q token → (∀ e ∈ indices, P levels e) →
    P (levels + 1) (.var token.literal indices token.loc)
  call : ∀ levels token arguments, token.kind = .ident → Q token → (∀ e ∈ arguments, P levels e) →
    P (levels + 1) (.call token.literal arguments token.loc)
  one : ∀ levels e loc, P levels e → P levels (.int ⟨1, "1", loc⟩)

/-- The step finds statements with the property, and leaves tokens that it found. -/
def StepFinds (Q : Token → Prop) (found : Statement → Prop)
    (step : Cursor → Option Statement × Cursor) : Prop :=
  ∀ cursor : Cursor, cursor.All Q →
    (step cursor).2.All Q ∧ ∀ statement ∈ (step cursor).1, found statement

section Steps

variable {inner : Cursor → Option Statement × Cursor} {found : Statement → Prop}

/-- The rounds of a block find statements with the property if each step does. -/
theorem Rounds.finds {ends : Token.Kind → Bool} {cursor last : Cursor}
    {statements : List Statement} (h : Rounds inner ends cursor statements last)
    (hinner : StepFinds Q found inner) (hall : cursor.All Q) :
    last.All Q ∧ ∀ statement ∈ statements, found statement := by
  induction h with
  | nil => exact ⟨hall, List.forall_mem_nil _⟩
  | @cons cursor _ _ _ _ ih =>
    obtain ⟨hmiddle, hfound⟩ := hinner cursor.advance hall.advance
    obtain ⟨hlast, htail⟩ := ih hmiddle
    exact ⟨hlast, List.forall_mem_append.2
      ⟨fun statement hmem => hfound statement (Option.mem_toList.1 hmem), htail⟩⟩

/-- A block holds statements with the property if each step finds such. -/
theorem block_finds (hinner : StepFinds Q found inner) (ends : Token.Kind → Bool) :
    Gives Q (block inner ends) fun statements => ∀ statement ∈ statements, found statement := by
  intro cursor value last hrun hall
  exact (rounds_of_block hrun).finds hinner hall

/-- A rule that finds statements with the property still does when its failures are recovered from.
-/
theorem recover_finds {rule : Parse (Option Statement)} (hkeeps : rule.Keeps Leads)
    (hrule : Gives Q rule fun value => ∀ statement ∈ value, found statement) :
    StepFinds Q found (recover rule) := by
  intro cursor hall
  refine ⟨hall.of_suffix (recover_keeps growth_leads hkeeps cursor).tokens, ?_⟩
  unfold recover
  split
  next statement next hrun => exact (hrule _ _ _ hrun hall).2
  next => simp
  next => simp

/-- The steps of a program find statements with the property if each step does. -/
theorem StepsTo.finds {cursor last : Cursor} {steps : List Step}
    (hsteps : StepsTo cursor steps last) (h : StepFinds Q found (statement maxNesting))
    (hall : cursor.All Q) : ∀ statement ∈ steps.filterMap (·.statement), found statement := by
  induction hsteps with
  | nil => exact List.forall_mem_nil _
  | @cons cursor _ _ _ _ ih =>
    obtain ⟨hnext, hfound⟩ := h cursor hall
    have htail := ih hnext.advance
    cases hhead : (statement maxNesting cursor).1 with
    | none => exact htail
    | some head => exact List.forall_mem_cons.2 ⟨hfound head hhead, htail⟩

end Steps

/-- The step finds statements whose expressions have the property, and leaves tokens that it
found. -/
def StepGives (Q : Token → Prop) (P : Nat → Expr → Prop) (levels : Nat)
    (step : Cursor → Option Statement × Cursor) : Prop :=
  ∀ cursor : Cursor, cursor.All Q →
    (step cursor).2.All Q ∧ ∀ statement ∈ (step cursor).1, statement.Within P levels

section Statements

variable {levels : Nat} {inner : Cursor → Option Statement × Cursor}

/-- A block holds statements whose expressions have the property. -/
theorem block_gives (hinner : StepGives Q P levels inner) (ends : Token.Kind → Bool) :
    Gives Q (block inner ends) fun statements =>
      ∀ statement ∈ statements, statement.Within P levels :=
  block_finds hinner ends

/-- An arm holds statements whose expressions have the property. -/
theorem branch_gives (hinner : StepGives Q P levels inner) (ends : Token.Kind → Bool) :
    Gives Q (branch inner ends) fun arm =>
      ∀ statement ∈ arm.statements, statement.Within P levels := by
  refine Gives.current.bind fun token _ => Gives.peek.bind fun next _ => ?_
  split
  · refine (Gives.of_leads (jumpTarget_keeps growth_leads.toDrift)).bind fun target _ =>
      Gives.skipSeparator.bind fun _ _ => (block_gives hinner ends).bind fun statements hrest => ?_
    split
    · exact .pure (by simp [Branch.statements])
    next hne =>
      -- the jump stands at the level of the statements behind it
      obtain ⟨head, tail, rfl⟩ := List.exists_cons_of_ne_nil hne
      obtain ⟨fewer, rfl⟩ := (hrest head List.mem_cons_self).exists_succ
      exact .pure (List.forall_mem_cons.2 ⟨.of_nil rfl rfl rfl, hrest⟩)
  · exact (block_gives hinner ends).bind fun _ hstatements => .pure hstatements

/-- The condition of an `IF` and what stands in its arms have the property, one level further down.
-/
theorem cond_gives (hexpr : ∀ power, Gives Q (expr power) (P levels))
    (hinner : StepGives Q P levels inner) :
    Gives Q (cond expr inner) (Statement.Within P (levels + 1)) := by
  refine Gives.current.bind fun token _ =>
    (nextExpression_gives hexpr _).bind fun condition hcond =>
    (Gives.expect (by decide)).bind fun _ _ =>
    (branch_gives hinner _).bind fun consequence hconsequence => Gives.peek.bind fun next _ => ?_
  split
  · refine Gives.advance.bind fun _ _ => (branch_gives hinner _).bind fun alternative halt =>
      .pure (.intro (by simp [Statement.heads]) (List.forall_mem_singleton.2 hcond) ?_)
    intro child hchild
    rcases List.mem_append.1 hchild with hchild | hchild
    · exact hconsequence child hchild
    · exact halt child (by simpa using hchild)
  · refine .pure (.intro (by simp [Statement.heads]) (List.forall_mem_singleton.2 hcond) ?_)
    intro child hchild
    exact hconsequence child (by simpa [Statement.children] using hchild)

/-- The value of an `ON` has the property, one level further down. -/
theorem on_gives (hexpr : ∀ power, Gives Q (expr power) (P levels)) :
    Gives Q (on expr) (Statement.Within P (levels + 1)) := by
  have hdrift := growth_leads.toDrift
  refine Gives.current.bind fun token _ =>
    (nextExpression_gives hexpr _).bind fun value hvalue => ?_
  refine .of_keeps ?_ ?_
  · exact .bind hdrift (jumpKind_keeps hdrift) fun _ => .bind hdrift
      (.commaList hdrift (jumpTarget_keeps hdrift)) fun _ => .bind hdrift (.skipSeparator hdrift)
        fun _ => .pure hdrift _
  · intro cursor statement last hrun
    simp only [bind_eq_ok] at hrun
    obtain ⟨kind, _, -, targets, _, -, _, _, -, ⟨⟩⟩ := hrun
    exact .intro (by simp [Statement.heads]) (List.forall_mem_singleton.2 hvalue)
      (by simp [Statement.children])

/-- The step of a loop has the property, also where it is not written. -/
theorem loopStep_gives (hexpr : ∀ power, Gives Q (expr power) (P levels)) {loc : Location}
    (hone : P levels (.int ⟨1, "1", loc⟩)) : Gives Q (loopStep expr loc) (P levels) := by
  refine Gives.peek.bind fun next _ => ?_
  split
  · exact Gives.advance.bind fun _ _ => nextExpression_gives hexpr _
  · exact .pure hone

/-- The bounds of a loop and what stands in its body have the property, one level further down. -/
theorem loop_gives (hpasses : Passes Q P) (hexpr : ∀ power, Gives Q (expr power) (P levels))
    (hinner : StepGives Q P levels inner) :
    Gives Q (loop expr inner) (Statement.Within P (levels + 1)) := by
  refine Gives.current.bind fun token _ => (Gives.expect (by decide)).bind fun counter _ =>
    (Gives.expect (by decide)).bind fun _ _ =>
    (nextExpression_gives hexpr _).bind fun first hfirst =>
    (Gives.expect (by decide)).bind fun _ _ =>
    (nextExpression_gives hexpr _).bind fun last hlast =>
    (loopStep_gives hexpr (hpasses.one _ _ _ hlast)).bind fun step hstep =>
    (Gives.of_leads (loopHeadEnd_keeps growth_leads.toDrift)).bind fun _ _ =>
    (block_gives hinner _).bind fun body hbody =>
    (Gives.of_leads (loopEnd_keeps growth_leads _)).bind fun _ _ => .pure (.intro ?_ ?_ hbody)
  · simp [Statement.heads]
  · simp [Statement.operands, hfirst, hlast, hstep]

/-- An assignment has the property if its target does: the value is read one level further down. -/
theorem assignTo_gives (hexpr : ∀ power, Gives Q (expr power) (P levels)) {target : Token}
    {indices : List Expr} (htarget : P (levels + 1) (.var target.literal indices target.loc)) :
    Gives Q (assignTo expr target indices) (Statement.Within P (levels + 1)) :=
  (Gives.expect (by decide)).bind fun _ _ => (nextExpression_gives hexpr _).bind fun _ hvalue =>
    Gives.skipSeparator.bind fun _ _ => .pure (.intro (List.forall_mem_singleton.2 htarget)
      (List.forall_mem_singleton.2 hvalue) (by simp [Statement.children]))

/-- A statement that starts with a name, the current token. -/
theorem namedStatement_gives (hpasses : Passes Q P)
    (hexpr : ∀ power, Gives Q (expr power) (P levels)) {cursor last : Cursor}
    {statement : Statement} (hkind : cursor.current.kind = .ident) (h : cursor.All Q)
    (hrun : namedStatement expr cursor = .ok statement last) :
    last.All Q ∧ statement.Within P (levels + 1) := by
  have htoken : Q cursor.current := h.current (by rw [hkind]; decide)
  have hvar indices := hpasses.var levels _ indices hkind htoken
  simp only [namedStatement, bind_eq_ok, current_apply, peek_apply] at hrun
  obtain ⟨_, _, ⟨⟩, _, _, ⟨⟩, hrun⟩ := hrun
  split at hrun
  · exact assignTo_gives hexpr (hvar [] (by simp)) _ _ _ hrun h
  · simp only [bind_eq_ok, get_apply] at hrun
    obtain ⟨_, _, ⟨⟩, hrun⟩ := hrun
    split at hrun
    · simp only [assignElement, bind_eq_ok, current_apply, expect_eq_ok] at hrun
      obtain ⟨_, _, ⟨⟩, _, _, ⟨-, rfl, rfl⟩, indices, middle, hindices, hrun⟩ := hrun
      obtain ⟨hmiddle, hpost⟩ := subscripts_gives hexpr _ _ _ hindices h.advance
      exact assignTo_gives hexpr (hvar indices hpost) _ _ _ hrun hmiddle
    · simp only [call, bind_eq_ok, current_apply, peek_apply] at hrun
      obtain ⟨_, _, ⟨⟩, _, _, ⟨⟩, hrun⟩ := hrun
      -- the arguments are missing, in parentheses or bare
      have hcall (arguments : List Expr) (harguments : ∀ e ∈ arguments, P levels e) :
          Gives Q (do
            skipSeparator
            return Statement.call cursor.current.literal arguments cursor.current.loc)
            (Statement.Within P (levels + 1)) :=
        Gives.skipSeparator.bind fun _ _ => .pure (.intro
          (List.forall_mem_singleton.2 (hpasses.call levels _ arguments hkind htoken harguments))
          (by simp [Statement.operands]) (by simp [Statement.children]))
      split at hrun
      · exact hcall [] (by simp) _ _ _ hrun h
      · split at hrun
        · exact (Gives.advance.bind fun _ _ => (arguments_gives hexpr).bind hcall) _ _ _ hrun h
        · exact (expressionList_gives hexpr).bind hcall _ _ _ hrun h

section Plain

/-! Statements without expressions: the tokens they take in do not matter. -/

/-- A line number holds no expressions. -/
theorem lineNumber_gives : Gives Q lineNumber (Statement.Within P (levels + 1)) := by
  refine Gives.current.bind fun token _ => Gives.peek.bind fun next _ => ?_
  split
  · exact Gives.advance.bind fun _ _ => Gives.skipSeparator.bind fun _ _ =>
      .pure (.of_nil rfl rfl rfl)
  · exact .pure (.of_nil rfl rfl rfl)

theorem label_gives : Gives Q label (Statement.Within P (levels + 1)) :=
  Gives.current.bind fun _ _ => (Gives.expect (by decide)).bind fun _ _ =>
    Gives.skipSeparator.bind fun _ _ => .pure (.of_nil rfl rfl rfl)

/-- A `DIM` holds no expressions: sizes are numbers. -/
theorem dim_gives : Gives Q dim (Statement.Within P (levels + 1)) :=
  Gives.current.bind fun _ _ =>
    (Gives.commaList (.of_leads (arrayDecl_keeps growth_leads))).bind fun _ _ =>
      Gives.skipSeparator.bind fun _ _ => .pure (.of_nil rfl rfl rfl)

/-- A jump holds no expressions. -/
theorem goto_gives : Gives Q goto (Statement.Within P (levels + 1)) :=
  Gives.current.bind fun _ _ =>
    (Gives.of_leads (jumpTarget_keeps growth_leads.toDrift)).bind fun _ _ =>
      Gives.skipSeparator.bind fun _ _ => .pure (.of_nil rfl rfl rfl)

/-- A jump to a subroutine holds no expressions. -/
theorem gosub_gives : Gives Q gosub (Statement.Within P (levels + 1)) :=
  Gives.current.bind fun _ _ =>
    (Gives.of_leads (jumpTarget_keeps growth_leads.toDrift)).bind fun _ _ =>
      Gives.skipSeparator.bind fun _ _ => .pure (.of_nil rfl rfl rfl)

theorem ret_gives : Gives Q ret (Statement.Within P (levels + 1)) :=
  Gives.current.bind fun _ _ => Gives.skipSeparator.bind fun _ _ => .pure (.of_nil rfl rfl rfl)

end Plain

/-- Whatever a rule finds holds expressions with the property. -/
theorem statementRule_gives (hpasses : Passes Q P)
    (hexpr : ∀ power, Gives Q (expr power) (P levels)) (hinner : StepGives Q P levels inner) :
    Gives Q (statementRule expr inner) fun found =>
      ∀ statement ∈ found, statement.Within P (levels + 1) := by
  intro cursor found last hrun hall
  rw [statementRule_apply] at hrun
  split at hrun
  · cases hrun
    exact ⟨(Gives.skipSeparator cursor _ _ rfl hall).1, by simp⟩
  · cases hrun
    exact ⟨hall, by simp⟩
  · exact lineNumber_gives.some _ _ _ hrun hall
  · exact label_gives.some _ _ _ hrun hall
  · exact dim_gives.some _ _ _ hrun hall
  · exact (cond_gives hexpr hinner).some _ _ _ hrun hall
  · exact (on_gives hexpr).some _ _ _ hrun hall
  · exact goto_gives.some _ _ _ hrun hall
  · exact gosub_gives.some _ _ _ hrun hall
  · exact ret_gives.some _ _ _ hrun hall
  · exact (loop_gives hpasses hexpr hinner).some _ _ _ hrun hall
  next hkind =>
    obtain ⟨statement, hnamed, rfl⟩ := map_eq_ok.1 hrun
    obtain ⟨hlast, hwithin⟩ := namedStatement_gives hpasses hexpr hkind hall hnamed
    exact ⟨hlast, by simpa using hwithin⟩
  · cases hrun
  · cases hrun
  · cases hrun

/-- The expressions of a statement that the parser finds have the property. -/
theorem statement_gives (hpasses : Passes Q P) (levels : Nat) :
    StepGives Q P levels (statement levels) := by
  have hdrift := growth_leads.toDrift
  induction levels with
  | zero =>
    refine recover_finds (tooDeep_keeps hdrift) ?_
    intro cursor found last hrun
    cases hrun
  | succ levels ih =>
    exact recover_finds
      (statementRule_keeps growth_leads (expression_keeps hdrift levels)
        (statement_keeps growth_leads levels))
      (statementRule_gives hpasses (hpasses.found levels) ih)

end Statements

end Grammar

/-- The statements of a program have the property that the parser gives to those it finds. -/
theorem program_found {Q : Token → Prop} {found : Statement → Prop}
    (hstep : Grammar.StepFinds Q found (Grammar.statement maxNesting)) (bytes : List UInt8)
    (h : ∀ token ∈ tokenize bytes, Q token) :
    ∀ statement ∈ (parse bytes).program, found statement :=
  (Grammar.steps_stepsTo (.ofTokens (tokenize bytes) [])).finds hstep fun token htoken =>
    h token (List.dropLast_subset _ htoken)

/-- The expressions of a program have the property that the parser gives to those it finds. -/
theorem program_within {Q : Token → Prop} {P : Nat → Expr → Prop} (hpasses : Grammar.Passes Q P)
    (bytes : List UInt8) (h : ∀ token ∈ tokenize bytes, Q token) :
    ∀ statement ∈ (parse bytes).program, statement.Within P maxNesting :=
  program_found (Grammar.statement_gives hpasses maxNesting) bytes h

end LineBasic
