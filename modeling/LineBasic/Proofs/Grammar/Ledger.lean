import LineBasic.Proofs.Grammar.Faults
import LineBasic.Proofs.Grammar.Names

/-!
# What tokens are spent on

Every statement of a program stands at a token of its own, and every diagnostic comes from a
statement that was given up and started at a token where now none stands. So the statements stand in
the order of the listing (`nodes_sorted`), and together with the diagnostics they are no more than
the tokens, which are no more than the bytes (`length_nodes_add_length_diagnostics_le`). Both hold
whether or not something is wrong with the listing.

`Ledger` is the account of the tokens from one place to another. A rule starts with its first token
as the current one, which is left to be spent until it is known what came of the statement there:
before a statement, and before an arm of an `IF`, the account goes up to the current token
(`Cursor.Unspent`), and else up to the next one (`Cursor.Spent`). A statement that is given up takes
those in it with it, but their diagnostics stay.
-/

namespace LineBasic

open Cursor Parse

/-! ## Accounts of tokens -/

/-- The tokens, up to the rest, are spent on the statements, in this order, and on a number of
faults. Each token is spent at most once, and a statement stands at the token spent on it. -/
inductive Ledger : List Token → List Statement → Nat → List Token → Prop
  /-- Nothing is taken in. -/
  | nil {ts : List Token} : Ledger ts [] 0 ts
  /-- A token that is spent on nothing. -/
  | token {t : Token} {ts us : List Token} {nodes : List Statement} {faults : Nat}
      (h : Ledger ts nodes faults us) : Ledger (t :: ts) nodes faults us
  /-- A token at which a statement stands. -/
  | node {t : Token} {ts us : List Token} {statement : Statement} {nodes : List Statement}
      {faults : Nat} (hloc : statement.loc = t.loc) (h : Ledger ts nodes faults us) :
      Ledger (t :: ts) (statement :: nodes) faults us
  /-- A token at which a statement was given up. -/
  | fault {t : Token} {ts us : List Token} {nodes : List Statement} {faults : Nat}
      (h : Ledger ts nodes faults us) : Ledger (t :: ts) nodes (faults + 1) us

namespace Ledger

variable {ts us vs : List Token} {nodes others : List Statement} {faults more : Nat}

/-- Accounts for adjacent stretches of tokens add up. -/
theorem trans (h : Ledger ts nodes faults us) (h' : Ledger us others more vs) :
    Ledger ts (nodes ++ others) (faults + more) vs := by
  induction h with
  | nil => rwa [List.nil_append, Nat.zero_add]
  | token _ ih => exact .token (ih h')
  | node hloc _ ih => exact .node hloc (ih h')
  | fault _ ih =>
    rw [Nat.add_right_comm]
    exact .fault (ih h')

/-- Tokens may be passed over for nothing. -/
theorem of_suffix (h : us <:+ ts) : Ledger ts [] 0 us := by
  obtain ⟨passed, rfl⟩ := h
  induction passed with
  | nil => exact .nil
  | cons t passed ih => exact .token ih

/-- Statements that are given up leave their tokens unspent. -/
theorem discard (h : Ledger ts nodes faults us) : Ledger ts [] faults us := by
  induction h with
  | nil => exact .nil
  | token _ ih | node _ _ ih => exact .token ih
  | fault _ ih => exact .fault ih

/-- The statements stand at some of the tokens, in their order. -/
theorem sublist (h : Ledger ts nodes faults us) :
    (nodes.map Statement.loc).Sublist (ts.map Token.loc) := by
  induction h with
  | nil => exact List.nil_sublist _
  | token _ ih => exact ih.cons _
  | node hloc _ ih =>
    rw [List.map_cons, List.map_cons, hloc]
    exact ih.cons_cons _
  | fault _ ih => exact ih.cons _

/-- Each statement and each fault has been paid for with a token of its own. -/
theorem length_le (h : Ledger ts nodes faults us) : nodes.length + faults ≤ ts.length := by
  induction h with
  | nil => exact Nat.zero_le _
  | token _ ih => exact Nat.le_succ_of_le ih
  | node _ _ ih =>
    rw [List.length_cons, List.length_cons]
    omega
  | fault _ ih => exact Nat.succ_le_succ ih

end Ledger

namespace Cursor

/-- Since the origin, the statements have been found and some faults reported, and the tokens up to
the next one account for them. -/
def Spent (origin : Cursor) (nodes : List Statement) (cursor : Cursor) : Prop :=
  ∃ faults, cursor.diagnostics.length = origin.diagnostics.length + faults ∧
    Ledger origin.rest nodes faults cursor.rest

/-- Since the origin, the statements have been found and some faults reported, and the tokens before
the current one account for them. -/
def Unspent (origin : Cursor) (nodes : List Statement) (cursor : Cursor) : Prop :=
  ∃ faults, cursor.diagnostics.length = origin.diagnostics.length + faults ∧
    Ledger origin.rest nodes faults cursor.tokens

/-- The later cursor is the earlier one, some tokens further on, and nothing was found wrong
between. -/
structure Skips (earlier later : Cursor) : Prop where
  tokens : later.tokens <:+ earlier.tokens
  diagnostics : later.diagnostics = earlier.diagnostics

/-- Rules that are put together from those that skip tokens skip tokens. -/
theorem drift_skips : Drift Skips where
  refl _ := ⟨List.suffix_rfl, rfl⟩
  trans h h' := ⟨h'.tokens.trans h.tokens, h'.diagnostics.trans h.diagnostics⟩
  advance _ := ⟨List.tail_suffix _, rfl⟩

variable {origin cursor last : Cursor} {nodes done : List Statement}

/-- An event that is no diagnostic costs nothing. -/
theorem Skips.note (cursor : Cursor) {event : Event} (hevent : event.diagnostic? = none) :
    Skips cursor (cursor.note event) := by
  refine ⟨List.suffix_rfl, ?_⟩
  rw [diagnostics_note, hevent, Option.toList_none, List.append_nil]

/-- The declaration of an array costs nothing. -/
theorem Skips.declare (cursor : Cursor) (name : String) (loc : Location) (dimensions : Nat) :
    Skips cursor (cursor.declare name loc dimensions) := by
  have hdeclared : Skips cursor { cursor with arrays := (name, loc) :: cursor.arrays } :=
    ⟨List.suffix_rfl, rfl⟩
  refine drift_skips.trans hdeclared (.note _ ?_)
  split
  · rfl
  · rfl

theorem Spent.refl (cursor : Cursor) : Spent cursor [] cursor :=
  ⟨0, rfl, .nil⟩

/-- Tokens that are passed over count as spent. -/
theorem Spent.skips (h : Spent origin nodes cursor) (hskips : Skips cursor last) :
    Spent origin nodes last := by
  obtain ⟨faults, hfaults, hledger⟩ := h
  refine ⟨faults, hskips.diagnostics ▸ hfaults, ?_⟩
  simpa using hledger.trans (.of_suffix (rest_suffix_rest hskips.tokens))

/-- The account still balances when the statements in it are given up. -/
theorem Spent.discard (h : Spent origin nodes cursor) : Spent origin [] cursor := by
  obtain ⟨faults, hfaults, hledger⟩ := h
  exact ⟨faults, hfaults, hledger.discard⟩

/-- The next token becomes the current one, still to be spent. -/
theorem Spent.advance (h : Spent origin nodes cursor) : Unspent origin nodes cursor.advance := h

/-- The token that is left to spend may be passed over as well. -/
theorem Unspent.spent (h : Unspent origin nodes cursor) : Spent origin nodes cursor := by
  obtain ⟨faults, hfaults, hledger⟩ := h
  exact ⟨faults, hfaults, by simpa using hledger.trans (.of_suffix cursor.rest_suffix)⟩

section Current

variable (h : Unspent origin done cursor) (hkind : cursor.current.kind ≠ .eof)

include h hkind

/-- The current token is spent on a statement, and those behind it on others. -/
theorem Unspent.node {statement : Statement} (hloc : statement.loc = cursor.current.loc)
    (hnodes : Spent cursor nodes last) : Spent origin (done ++ statement :: nodes) last := by
  obtain ⟨faults, hfaults, hledger⟩ := h
  obtain ⟨more, hmore, hbehind⟩ := hnodes
  rw [tokens_eq_cons hkind] at hledger
  exact ⟨faults + more, by omega, hledger.trans (.node hloc hbehind)⟩

/-- The current token is spent on a statement that is given up. -/
theorem Unspent.fault (hlast : Spent cursor nodes last) (diagnostic : Diagnostic) :
    Spent origin done (last.note (.recovered diagnostic)) := by
  obtain ⟨faults, hfaults, hledger⟩ := h
  obtain ⟨more, hmore, hbehind⟩ := hlast
  rw [tokens_eq_cons hkind] at hledger
  refine ⟨faults + (more + 1), ?_, by simpa using hledger.trans (.fault hbehind.discard)⟩
  rw [diagnostics_note, List.length_append, hmore, hfaults, ← Nat.add_assoc, ← Nat.add_assoc]
  rfl

/-- The current token is spent on nothing. -/
theorem Unspent.skip (hlast : Spent cursor [] last) : Spent origin done last := by
  obtain ⟨faults, hfaults, hledger⟩ := h
  obtain ⟨more, hmore, hbehind⟩ := hlast
  rw [tokens_eq_cons hkind] at hledger
  exact ⟨faults + more, by omega, by simpa using hledger.trans (.token hbehind)⟩

end Current

end Cursor

/-! ## Parsers that keep accounts -/

namespace Parse

variable {α β : Type} {origin cursor : Cursor} {x : Parse α} {post : α → Cursor → Prop}

/-- The run from the cursor ends as told if it succeeds. If it fails, the tokens account for the
faults that have been reported since the origin. -/
def Spends (origin : Cursor) (x : Parse α) (post : α → Cursor → Prop) (cursor : Cursor) : Prop :=
  match x cursor with
  | .ok value last => post value last
  | .error _ last => Spent origin [] last

namespace Spends

theorem pure {value : α} (h : post value cursor) :
    Spends origin (Pure.pure value : Parse α) post cursor := h

/-- A failure at once leaves its token to the diagnostic. -/
theorem fail (h : Spent origin [] cursor) (cause : Cause) (loc : Location) :
    Spends origin (Parse.fail cause loc : Parse α) post cursor := h

/-- A parser that only passes over tokens. -/
theorem skipping {done : List Statement} (hkeeps : x.Keeps Skips) (h : Spent origin done cursor) :
    Spends origin x (fun _ last => Spent origin done last) cursor := by
  unfold Spends
  split
  next value last hrun => exact h.skips (hkeeps.of_ok hrun)
  next d last hrun => exact (h.skips (hkeeps.of_error hrun)).discard

/-- The second parser goes on with the account of the first. -/
theorem bind {f : α → Parse β} {next : β → Cursor → Prop} (hx : Spends origin x post cursor)
    (hf : ∀ value last, post value last → Spends origin (f value) next last) :
    Spends origin (x >>= f) next cursor := by
  unfold Spends at hx ⊢
  rw [bind_apply]
  cases hrun : x cursor with
  | ok value last =>
    rw [hrun] at hx
    exact hf value last hx
  | error d last =>
    rw [hrun] at hx
    exact hx

/-- A function on the result leaves the account as it is. -/
theorem map {f : α → β} {next : β → Cursor → Prop}
    (hx : Spends origin x (fun value last => next (f value) last) cursor) :
    Spends origin (f <$> x) next cursor := by
  rw [map_eq_pure_bind]
  exact hx.bind fun _ _ h => .pure h

theorem current {f : Token → Parse β} {next : β → Cursor → Prop}
    (h : Spends origin (f cursor.current) next cursor) :
    Spends origin (Parse.current >>= f) next cursor := h

theorem peek {f : Token → Parse β} {next : β → Cursor → Prop}
    (h : Spends origin (f cursor.peek) next cursor) :
    Spends origin (Parse.peek >>= f) next cursor := h

theorem get {f : Cursor → Parse β} {next : β → Cursor → Prop}
    (h : Spends origin (f cursor) next cursor) :
    Spends origin (MonadState.get >>= f) next cursor := h

/-- The parser behind a step starts on the next token. -/
theorem advance {f : Token → Parse β} {next : β → Cursor → Prop}
    (h : Spends origin (f cursor.peek) next cursor.advance) :
    Spends origin (Parse.advance >>= f) next cursor := h

/-- An expected token becomes the current one, still to be spent. -/
theorem expect {done : List Statement} (h : Spent origin done cursor) (kind : Token.Kind) :
    Spends origin (Parse.expect kind)
      (fun _ last => Unspent origin done last ∧ last.current.kind = kind) cursor := by
  refine .peek ?_
  split
  next hkind => exact ⟨h.advance, hkind⟩
  next => exact h.discard

/-- An account that starts anew behind a token goes on the account up to that token. -/
theorem behind {done : List Statement} {start : Cursor} (h : Unspent origin done cursor)
    (hkind : cursor.current.kind ≠ .eof) (hx : Spends cursor x post start) :
    Spends origin x post start := by
  unfold Spends at hx ⊢
  split at hx
  · exact hx
  · exact (h.skip hkind hx).discard

end Spends

end Parse

namespace Grammar

variable {origin cursor : Cursor} {done : List Statement} {expr : Nat → Parse Expr}
  {inner : Cursor → Option Statement × Cursor}

/-! ## Rules that hold no statements -/

/-- A declaration is none of the statements that are counted, only the `DIM` is. -/
theorem arrayDecl_skips : arrayDecl.Keeps Skips := by
  have h := drift_skips
  refine .bind h (.expect h _) fun name => .bind h (.expect h _) fun _ =>
    .bind h (.commaList h (arraySize_keeps h)) fun sizes => .bind h (.expect h _) fun _ =>
    .bind h ?_ fun _ => .pure h _
  exact fun cursor => Skips.declare cursor name.literal name.loc sizes.length

/-- The end of a loop belongs to the `FOR`, which has been paid for. -/
theorem loopEnd_skips (counter : String) : (loopEnd counter).Keeps Skips := by
  have h := drift_skips
  refine .bind h (.expect h _) fun _ => .bind h (.peek h) fun next => ?_
  split
  · refine .bind h (.advance h) fun name => ?_
    split
    · refine .bind h ?_ fun _ => .skipSeparator h
      exact fun cursor => Skips.note cursor rfl
    · exact .skipSeparator h
  · exact .skipSeparator h

/-- The statement stands at the current token of the origin, and those in it have been found
since. -/
def Stands (origin : Cursor) (statement : Statement) (last : Cursor) : Prop :=
  statement.loc = origin.current.loc ∧ Spent origin (Statement.listNodes statement.children) last

/-- The last steps of a rule for a statement in which no other stands. -/
theorem separated_spends {statement : Statement} (hloc : statement.loc = origin.current.loc)
    (hchildren : statement.children = []) (h : Spent origin [] cursor) :
    Spends origin (do skipSeparator; return statement) (Stands origin) cursor := by
  refine .bind (.skipping (.skipSeparator drift_skips) h) fun _ _ h => .pure ⟨hloc, ?_⟩
  rwa [hchildren]

section Plain

variable (hexpr : ∀ power, (expr power).Keeps Skips)

/-- A line number is a statement that stands at its own token. -/
theorem lineNumber_spends (cursor : Cursor) :
    Spends cursor lineNumber (Stands cursor) cursor := by
  refine .current (.peek ?_)
  split
  · exact .advance (separated_spends rfl rfl (Spent.refl cursor).advance.spent)
  · exact .pure ⟨rfl, .refl cursor⟩

theorem label_spends (cursor : Cursor) : Spends cursor label (Stands cursor) cursor :=
  .current (.bind (.skipping (.expect drift_skips _) (.refl cursor)) fun _ _ h =>
    separated_spends rfl rfl h)

theorem dim_spends (cursor : Cursor) : Spends cursor dim (Stands cursor) cursor :=
  .current (.bind (.skipping (.commaList drift_skips arrayDecl_skips) (.refl cursor))
    fun _ _ h => separated_spends rfl rfl h)

theorem goto_spends (cursor : Cursor) : Spends cursor goto (Stands cursor) cursor :=
  .current (.bind (.skipping (jumpTarget_keeps drift_skips) (.refl cursor))
    fun _ _ h => separated_spends rfl rfl h)

theorem gosub_spends (cursor : Cursor) : Spends cursor gosub (Stands cursor) cursor :=
  .current (.bind (.skipping (jumpTarget_keeps drift_skips) (.refl cursor))
    fun _ _ h => separated_spends rfl rfl h)

theorem ret_spends (cursor : Cursor) : Spends cursor ret (Stands cursor) cursor :=
  .current (separated_spends rfl rfl (.refl cursor))

include hexpr

/-- An `ON` stands at its keyword, whatever targets it lists. -/
theorem on_spends (cursor : Cursor) : Spends cursor (on expr) (Stands cursor) cursor := by
  have hdrift := drift_skips
  exact .current (.bind (.skipping (nextExpression_keeps hdrift hexpr _) (.refl cursor))
    fun _ _ h => .bind (.skipping (jumpKind_keeps hdrift) h) fun _ _ h =>
    .bind (.skipping (.commaList hdrift (jumpTarget_keeps hdrift)) h)
    fun _ _ h => separated_spends rfl rfl h)

/-- An assignment stands at its target, which the rule is given. -/
theorem assignTo_spends {target : Token} (indices : List Expr)
    (htarget : target.loc = origin.current.loc) (h : Spent origin [] cursor) :
    Spends origin (assignTo expr target indices) (Stands origin) cursor :=
  .bind (.skipping (.expect drift_skips _) h) fun _ _ h =>
    .bind (.skipping (nextExpression_keeps drift_skips hexpr _) h)
    fun _ _ h => separated_spends htarget rfl h

/-- A call statement stands at the name of its function. -/
theorem call_spends (cursor : Cursor) : Spends cursor (call expr) (Stands cursor) cursor := by
  have hdrift := drift_skips
  refine .current (.peek ?_)
  split
  · exact .bind (.pure (.refl cursor)) fun _ _ h => separated_spends rfl rfl h
  · split
    · exact .advance (.bind (.skipping (arguments_keeps hdrift hexpr)
        (Spent.refl cursor).advance.spent) fun _ _ h => separated_spends rfl rfl h)
    · exact .bind (.skipping (expressionList_keeps hdrift hexpr) (.refl cursor))
        fun _ _ h => separated_spends rfl rfl h

/-- A statement that starts with a name stands at that name. -/
theorem namedStatement_spends (cursor : Cursor) :
    Spends cursor (namedStatement expr) (Stands cursor) cursor := by
  refine .current (.peek ?_)
  split
  · exact assignTo_spends hexpr [] rfl (.refl cursor)
  · refine .get ?_
    split
    · exact .current (.bind (.skipping (.expect drift_skips _) (.refl cursor)) fun _ _ h =>
        .bind (.skipping (subscripts_keeps drift_skips hexpr) h)
        fun indices _ h => assignTo_spends hexpr indices rfl h)
    · exact call_spends hexpr cursor

end Plain

/-! ## Rules that hold statements -/

/-- The step over a statement spends the tokens that it takes in on what it finds. -/
def StepSpends (inner : Cursor → Option Statement × Cursor) : Prop :=
  ∀ (origin cursor : Cursor) (done : List Statement), cursor.current.kind ≠ .eof →
    Unspent origin done cursor →
    Spent origin (done ++ Statement.listNodes (inner cursor).1.toList) (inner cursor).2

/-- By induction on the rounds: each spends its tokens on its statement and what stands in it. -/
theorem Rounds.spends {ends : Token.Kind → Bool} {last : Cursor} {statements : List Statement}
    (hrounds : Rounds inner ends cursor statements last) (hinner : StepSpends inner)
    (hends : ends .eof = true) (h : Spent origin done cursor) :
    Spent origin (done ++ Statement.listNodes statements) last := by
  induction hrounds generalizing done with
  | nil =>
    rw [Statement.listNodes, List.append_nil]
    exact h
  | @cons cursor _ _ hmore _ ih =>
    -- the block goes on, so the next token is not the end and can be spent
    have hkind : cursor.advance.current.kind ≠ .eof := by
      intro hend
      rw [current_advance] at hend
      rw [hend, hends] at hmore
      cases hmore
    have hhead := hinner origin cursor.advance done hkind h.advance
    rw [Statement.listNodes_append, ← List.append_assoc]
    exact ih hhead

/-- The statements of a block are found in order, and the tokens up to its end are spent. -/
theorem block_spends (hinner : StepSpends inner) {ends : Token.Kind → Bool}
    (hends : ends .eof = true) (h : Spent origin done cursor) :
    Spends origin (block inner ends)
      (fun statements last => Spent origin (done ++ Statement.listNodes statements) last) cursor :=
  (blockWithin_rounds _ cursor).spends hinner hends h

/-- The keyword in front of an arm is spent on the jump that a label behind it stands for. -/
theorem branch_spends (hinner : StepSpends inner) {ends : Token.Kind → Bool}
    (hends : ends .eof = true) (hkind : cursor.current.kind ≠ .eof)
    (h : Unspent origin done cursor) :
    Spends origin (branch inner ends)
      (fun arm last => Spent origin (done ++ Statement.listNodes arm.statements) last) cursor := by
  refine .current (.peek ?_)
  split
  · -- behind the keyword the account starts anew, until it is known whether statements follow
    refine .behind h hkind (.bind (.skipping (jumpTarget_keeps drift_skips) (.refl cursor))
      fun target _ hlabel => .bind (.skipping (.skipSeparator drift_skips) hlabel)
      fun _ _ hlabel => .bind (block_spends hinner hends hlabel) fun statements last hblock => ?_)
    split
    · exact .pure (by simpa [Branch.statements, Statement.listNodes] using h.skip hkind hblock)
    · exact .pure (h.node hkind rfl hblock)
  · exact (block_spends hinner hends h.spent).bind fun _ _ h => .pure h

/-- An `IF` stands at its keyword, and the statements of its arms at tokens behind it. -/
theorem cond_spends (hexpr : ∀ power, (expr power).Keeps Skips) (hinner : StepSpends inner)
    (cursor : Cursor) : Spends cursor (cond expr inner) (Stands cursor) cursor := by
  refine .current (.bind (.skipping (nextExpression_keeps drift_skips hexpr _) (.refl cursor))
    fun condition _ h => .bind (.expect h _) fun _ _ ⟨h, hkind⟩ =>
    .bind (branch_spends hinner rfl (hkind ▸ Token.Kind.noConfusion) h)
    fun consequence _ h => .peek ?_)
  split
  next hkind =>
    refine .advance (.bind (branch_spends hinner rfl (hkind ▸ Token.Kind.noConfusion) h.advance)
      fun alternative _ h => .pure ⟨rfl, ?_⟩)
    simpa [Statement.children, Statement.listNodes_append] using h
  next => exact .pure ⟨rfl, by simpa [Statement.children] using h⟩

/-- A `FOR` stands at its keyword, and the statements of its body at tokens behind it. -/
theorem loop_spends (hexpr : ∀ power, (expr power).Keeps Skips) (hinner : StepSpends inner)
    (cursor : Cursor) : Spends cursor (loop expr inner) (Stands cursor) cursor := by
  have hdrift := drift_skips
  exact .current (.bind (.skipping (.expect hdrift _) (.refl cursor))
    fun counter _ h => .bind (.skipping (.expect hdrift _) h)
    fun _ _ h => .bind (.skipping (nextExpression_keeps hdrift hexpr _) h)
    fun first _ h => .bind (.skipping (.expect hdrift _) h)
    fun _ _ h => .bind (.skipping (nextExpression_keeps hdrift hexpr _) h)
    fun last _ h => .bind (.skipping (loopStep_keeps hdrift hexpr _) h)
    fun step _ h => .bind (.skipping (loopHeadEnd_keeps hdrift) h)
    fun _ _ h => .bind (block_spends hinner rfl h)
    fun body _ h => .bind (.skipping (loopEnd_skips _) h)
    fun _ _ h => .pure ⟨rfl, h⟩)

/-- What the rules for statements find. A remark and a colon on its own are no statement. -/
def Found (origin : Cursor) : Option Statement → Cursor → Prop
  | some statement, last => Stands origin statement last
  | none, last => Spent origin [] last

/-- Every rule for statements leaves a balanced account. -/
theorem statementRule_spends (hexpr : ∀ power, (expr power).Keeps Skips)
    (hinner : StepSpends inner) (cursor : Cursor) :
    Spends cursor (statementRule expr inner) (Found cursor) cursor := by
  have hrefl := Spent.refl cursor
  refine .current ?_
  -- one case for each rule, and the tokens that start no statement in the end
  split
  · exact .bind (.skipping (.skipSeparator drift_skips) hrefl) fun _ _ h => .pure h
  · exact .pure hrefl
  · exact .map (lineNumber_spends cursor)
  · exact .map (label_spends cursor)
  · exact .map (dim_spends cursor)
  · exact .map (cond_spends hexpr hinner cursor)
  · exact .map (on_spends hexpr cursor)
  · exact .map (goto_spends cursor)
  · exact .map (gosub_spends cursor)
  · exact .map (ret_spends cursor)
  · exact .map (loop_spends hexpr hinner cursor)
  · exact .map (namedStatement_spends hexpr cursor)
  · exact .fail hrefl _ _
  · exact .fail hrefl _ _
  · exact .fail hrefl _ _

/-- Whatever comes of a statement, its first token pays for it: it stands there, or its diagnostic
comes from there. -/
theorem recover_spends {rule : Parse (Option Statement)} (hkind : cursor.current.kind ≠ .eof)
    (h : Unspent origin done cursor) (hrule : Spends cursor rule (Found cursor) cursor) :
    Spent origin (done ++ Statement.listNodes (recover rule cursor).1.toList)
      (recover rule cursor).2 := by
  unfold Spends at hrule
  unfold recover
  -- the rule finds a statement, finds none, or fails; in any case its first token is spent
  split
  next statement last hrun =>
    rw [hrun] at hrule
    obtain ⟨hloc, hchildren⟩ := hrule
    rw [Option.toList_some, Statement.listNodes_singleton, Statement.nodes_eq]
    exact (h.node hkind hloc hchildren).skips (.note _ rfl)
  next last hrun =>
    rw [hrun] at hrule
    rw [Option.toList_none, Statement.listNodes, List.append_nil]
    exact h.skip hkind hrule
  next diagnostic last hrun =>
    rw [hrun] at hrule
    rw [Option.toList_none, Statement.listNodes, List.append_nil]
    exact (h.fault hkind hrule diagnostic).skips (drift_skips.synchronize _)

/-- A statement spends the tokens that it takes in on what it finds, at any level. -/
theorem statement_spends (levels : Nat) : StepSpends (statement levels) := by
  induction levels with
  | zero =>
    intro origin cursor done hkind h
    exact recover_spends hkind h (.current (.fail (.refl cursor) _ _))
  | succ levels ih =>
    intro origin cursor done hkind h
    have hexpr := expression_keeps drift_skips levels
    exact recover_spends hkind h (statementRule_spends hexpr ih cursor)

/-- By induction on the steps: the statements of a listing are paid for with its tokens. -/
theorem StepsTo.spends {last : Cursor} {steps : List Step} (hsteps : StepsTo cursor steps last)
    (h : Unspent origin done cursor) :
    Unspent origin (done ++ Statement.listNodes (steps.filterMap (·.statement))) last := by
  induction hsteps generalizing done with
  | nil => simpa [Statement.listNodes] using h
  | @cons cursor _ _ hmore _ ih =>
    have hhead := statement_spends maxNesting origin cursor done hmore h
    have hsteps := ih hhead.advance
    cases hfound : (statement maxNesting cursor).1 with
    | none | some statement => simpa [hfound, Statement.listNodes] using hsteps

end Grammar

/-- The tokens of a listing are spent on the statements of its program and on its diagnostics. -/
theorem ledger_of_tokenize {bytes : List UInt8} {body : List Token} {finish : Location}
    (htokens : tokenize bytes = body ++ [.endAt finish])
    (hbody : ∀ token ∈ body, token.kind ≠ .eof) :
    Ledger body (Statement.listNodes (parse bytes).program) (parse bytes).diagnostics.length
      [] := by
  obtain ⟨hprogram, hfinal⟩ := parse_of_tokenize htokens
  -- the account starts on a token that stands for nothing, in front of the first
  have hstart : Unspent (Grammar.before (.start body finish [])) [] (.start body finish []) :=
    ⟨0, rfl, .nil⟩
  obtain ⟨faults, hfaults, hledger⟩ := (Grammar.steps_stepsTo _).spends hstart
  have hcount : (Grammar.steps (.start body finish [])).2.diagnostics.length = faults :=
    hfaults.trans (Nat.zero_add _)
  have hend : (Grammar.steps (.start body finish [])).2.tokens = [] :=
    Grammar.stepsWithin_tokens hbody (Nat.le_refl _)
  rw [Listing.diagnostics, hprogram, hfinal, hcount, ← hend]
  exact hledger

/-- The statements of a program, each before those in it, stand in the order of the listing, each
at one of its tokens. -/
theorem nodes_sorted (bytes : List UInt8) :
    ((Statement.listNodes (parse bytes).program).Pairwise fun first second =>
        first.loc.Before second.loc) ∧
      ∀ s ∈ Statement.listNodes (parse bytes).program, ∃ t ∈ tokenize bytes, t.loc = s.loc := by
  obtain ⟨body, finish, htokens, hbody, hsorted⟩ := tokenize_eq_body_append bytes
  have hsublist := (ledger_of_tokenize htokens hbody).sublist
  constructor
  · -- what stands at some of the tokens, in their order, is sorted as they are
    rw [← List.pairwise_map] at hsorted ⊢
    exact hsorted.sublist hsublist
  · intro s hs
    obtain ⟨t, ht, hloc⟩ := List.mem_map.1 (hsublist.subset (List.mem_map_of_mem hs))
    exact ⟨t, htokens ▸ List.mem_append_left _ ht, hloc⟩

/-- A jump that a bare label stands for is at the keyword in front of it. -/
example :
    let listing := parse (Utf8.encode "10 IF A THEN 20 : X = 1 ELSE 30 : RETURN")
    (Statement.listNodes listing.program).map (·.loc) =
      [⟨1, 1⟩, ⟨1, 4⟩, ⟨1, 9⟩, ⟨1, 19⟩, ⟨1, 25⟩, ⟨1, 35⟩] := by
  decide +kernel

/-- Every token but the end token takes at least one byte. -/
theorem Stream.length_tokens_le (stream : Stream) :
    stream.tokens.length ≤ stream.unread.length + 1 := by
  induction stream using Stream.induction with
  | last stream hend =>
    rw [tokens_of_eof hend, List.length_singleton]
    exact Nat.succ_le_succ (Nat.zero_le _)
  | step stream hend ih =>
    have hlt := stream.length_unread_next_lt hend
    rw [tokens_of_ne_eof hend, List.length_cons]
    omega

/-- The statements and the diagnostics of a listing are no more than its tokens, the end token left
out, and those are no more than its bytes. -/
theorem length_nodes_add_length_diagnostics_le (bytes : List UInt8) :
    (Statement.listNodes (parse bytes).program).length + (parse bytes).diagnostics.length ≤
        ((tokenize bytes).filter (·.kind ≠ .eof)).length ∧
      ((tokenize bytes).takeWhile (·.kind ≠ .eof)).length ≤ bytes.length := by
  -- the end token comes last and once, so both ways of leaving it out give the body
  obtain ⟨body, finish, htokens, hbody, -⟩ := tokenize_eq_body_append bytes
  have hlength : body.length + 1 ≤ bytes.length + 1 := by
    have hle := (Stream.ofDelivery (.ofBytes bytes)).length_tokens_le
    rw [← tokenize, htokens, List.length_append, Stream.ofDelivery, Stream.unread_settled] at hle
    exact hle
  have hfilter : (tokenize bytes).filter (·.kind ≠ .eof) = body := by
    rw [htokens, List.filter_append, List.filter_eq_self.2 (by simpa using hbody)]
    exact List.append_nil body
  have htakeWhile : (tokenize bytes).takeWhile (·.kind ≠ .eof) = body := by
    rw [htokens, List.takeWhile_append_of_pos (by simpa using hbody)]
    exact List.append_nil body
  rw [hfilter, htakeWhile]
  exact ⟨(ledger_of_tokenize htokens hbody).length_le, Nat.le_of_succ_le_succ hlength⟩

end LineBasic
