import LineBasic.Proofs.Grammar.Rounds
import LineBasic.Proofs.Grammar.Soundness

/-!
# Where line numbers and conditions can stand

The arms of an `IF` go on to the end of the line, so what stands in a list behind an `IF` is a line
number or nothing; no line number stands in an arm itself; and no arm before `ELSE`, and no body of
a loop, ends in an `IF`, because that would have taken the rest of the line. A program without a
diagnostic is laid out like this at every depth (`isLaidOut_of_isClean`).

A reading does not say where its parts have to end, so this is proved about the runs of the parser.
-/

namespace LineBasic

open Cursor Parse

namespace Statement

/-- Whether the statement is a line number. -/
def isLine : Statement → Bool
  | lineNumber _ _ _ => true
  | _ => false

/-- Whether the statement is an `IF`. -/
def isCond : Statement → Bool
  | cond _ _ _ _ => true
  | _ => false

end Statement

mutual

/-- Whether an arm is laid out as the parser leaves it. An `IF` may be its last statement if
`open_` holds. -/
def Branch.isLaidOut (open_ : Bool) : Branch → Bool
  | .goto _ => true
  | .block statements => Statement.listIsLaidOut false open_ statements

/-- Whether an arm is laid out which may be missing. -/
def Branch.elseIsLaidOut : Option Branch → Bool
  | none => true
  | some branch => branch.isLaidOut true

/-- Whether the statements in a statement are laid out as the parser leaves them. -/
def Statement.isLaidOut : Statement → Bool
  | .cond _ consequence alternative _ =>
    consequence.isLaidOut alternative.isNone && Branch.elseIsLaidOut alternative
  | .loop _ _ _ _ body _ => Statement.listIsLaidOut true false body
  | _ => true

/-- Whether some statements are laid out as the parser leaves them. Line numbers may stand among
them if `lines` holds, and an `IF` may be the last of them if `open_` holds. -/
def Statement.listIsLaidOut (lines open_ : Bool) : List Statement → Bool
  | [] => true
  | head :: tail =>
    head.isLaidOut && (lines || !head.isLine) &&
      (!head.isCond || tail.head?.elim open_ Statement.isLine) &&
      Statement.listIsLaidOut lines open_ tail

end

/-- A list is laid out if its first statement is, lines start only where they may, what follows an
`IF` is a line, and the others are laid out. -/
theorem Statement.listIsLaidOut_cons {lines open_ : Bool} {head : Statement}
    {tail : List Statement} :
    Statement.listIsLaidOut lines open_ (head :: tail) = true ↔
      head.isLaidOut = true ∧ (head.isLine = true → lines = true) ∧
        (head.isCond = true → tail.head?.elim open_ Statement.isLine = true) ∧
        Statement.listIsLaidOut lines open_ tail = true := by
  rw [Statement.listIsLaidOut]
  cases head.isLine <;> cases head.isCond <;> simp [and_assoc]

/-- Every statement of a list that is laid out is laid out itself, and is a line only if lines may
stand there. -/
theorem Statement.isLaidOut_of_mem {lines open_ : Bool} {statements : List Statement}
    (h : Statement.listIsLaidOut lines open_ statements = true) :
    ∀ statement ∈ statements, statement.isLaidOut = true ∧
      (statement.isLine = true → lines = true) := by
  induction statements with
  | nil => simp
  | cons head tail ih =>
    obtain ⟨hinside, hline, -, htail⟩ := Statement.listIsLaidOut_cons.1 h
    exact List.forall_mem_cons.2 ⟨⟨hinside, hline⟩, ih htail⟩

/-! ## What the first token tells -/

/-- A line number is what a number at the start of a line reads as. -/
theorem Reading.isLine_iff {before after : Declarations} {t : Token} {ts us : List Token}
    {found : Option Statement} (h : Reading before (t :: ts) (.statement found) after us) :
    (∃ statement ∈ found, statement.isLine = true) ↔ t.kind = .lineNo := by
  cases h <;> simp_all [Statement.isLine]

/-- Nothing stands in a statement that is neither an `IF` nor a loop. -/
theorem Reading.isLaidOut {before after : Declarations} {t : Token} {ts us : List Token}
    {statement : Statement} (h : Reading before (t :: ts) (.statement (some statement)) after us)
    (hif : t.kind ≠ .word .if_) (hfor : t.kind ≠ .word .for_) :
    statement.isLaidOut = true ∧ statement.isCond = false := by
  cases h with
  | cond ht | condElse ht => exact absurd ht hif
  | loop ht => exact absurd ht hfor
  | _ => exact ⟨rfl, rfl⟩

/-! ## Runs -/

namespace Grammar

variable {expr : Nat → Parse Expr} {step : Cursor → Option Statement × Cursor}
  {cursor last : Cursor}

/-- A statement that the parser finds is laid out, and an `IF` ends where the line does. -/
structure LaidOut (statement : Statement) (last : Cursor) : Prop where
  inside : statement.isLaidOut = true
  behind : statement.isCond = true → endsElse last.peek.kind = true

/-- Whatever the step finds without recording a diagnostic is laid out. -/
def StepLaysOut (step : Cursor → Option Statement × Cursor) : Prop :=
  ∀ cursor found last, step cursor = (found, last) → last.Clean →
    ∀ statement ∈ found, LaidOut statement last

theorem endsElse_iff {kind : Token.Kind} : endsElse kind = true ↔ kind = .eof ∨ kind = .lineNo := by
  simp [endsElse]

section Blocks

variable (hleads : ∀ cursor, Leads cursor (step cursor).2) (hsound : StepSound step)
  (hstep : StepLaysOut step)

include hleads hsound hstep

/-- A block ends where it should. What is in it is laid out, and if the line ends before it, it
starts with a line number or is empty. -/
theorem blockWithin_laidOut {ends : Token.Kind → Bool} (heof : ends .eof = true) {limit : Nat}
    {statements : List Statement} (hlimit : cursor.rest.length ≤ limit)
    (h : blockWithin step ends limit cursor = (statements, last)) (hclean : last.Clean) :
    ends last.peek.kind = true ∧
      Statement.listIsLaidOut (!ends .lineNo) (endsElse last.peek.kind) statements = true ∧
      (endsElse cursor.peek.kind = true →
        statements.head?.elim (endsElse last.peek.kind) Statement.isLine = true) := by
  induction limit generalizing cursor statements with
  | zero =>
    cases h
    have hnil := List.eq_nil_of_length_eq_zero (Nat.le_zero.1 hlimit)
    exact ⟨(peek_kind_of_rest_nil hnil).symm ▸ heof, rfl, id⟩
  | succ limit ih =>
    cases hends : ends cursor.peek.kind with
    | true =>
      rw [blockWithin_of_ends hends] at h
      cases h
      exact ⟨hends, rfl, id⟩
    | false =>
      rw [blockWithin_of_not_ends hends] at h
      cases hfirst : step cursor.advance with
      | mk found middle =>
        rw [hfirst] at h
        cases h
        -- the statement takes in one token at least
        have hkind : cursor.peek.kind ≠ .eof := by
          intro hkind
          rw [hkind, heof] at hends
          cases hends
        have hmoved : Leads cursor.advance middle := by
          have hmoved := hleads cursor.advance
          rwa [hfirst] at hmoved
        have hless : middle.rest.length ≤ limit := by
          have hle := (rest_suffix_rest hmoved.tokens).length_le
          have hlt : cursor.advance.rest.length < cursor.rest.length := length_rest_lt hkind
          omega
        have hmiddle : middle.Clean :=
          ((blockWithin_rounds limit middle).keeps growth_leads.toDrift hleads).clean hclean
        have hreading := hsound _ _ _ hfirst hmiddle
        rw [tokens_advance, rest_eq_cons hkind] at hreading
        obtain ⟨hend, hlaid, hbehind⟩ := ih hless rfl
        refine ⟨hend, ?_, ?_⟩
        · cases found with
          | none => exact hlaid
          | some statement =>
            obtain ⟨hinside, hline⟩ := hstep _ _ _ hfirst hmiddle statement rfl
            refine Statement.listIsLaidOut_cons.2
              ⟨hinside, fun hisLine => ?_, fun hcond => hbehind (hline hcond), hlaid⟩
            -- a line number goes on with the block, so it does not end it
            rw [hreading.isLine_iff.1 ⟨statement, rfl, hisLine⟩] at hends
            rw [hends]
            rfl
        · intro hline
          have hlineNo : cursor.peek.kind = .lineNo :=
            (endsElse_iff.1 hline).resolve_left hkind
          obtain ⟨statement, hfound, hisLine⟩ := hreading.isLine_iff.2 hlineNo
          cases hfound
          exact hisLine

/-- A block without a diagnostic ends where it is meant to, and is laid out. -/
theorem block_laidOut {ends : Token.Kind → Bool} (heof : ends .eof = true)
    {statements : List Statement} (h : block step ends cursor = .ok statements last)
    (hclean : last.Clean) :
    ends last.peek.kind = true ∧
      Statement.listIsLaidOut (!ends .lineNo) (endsElse last.peek.kind) statements = true := by
  obtain ⟨hend, hlaid, -⟩ := blockWithin_laidOut hleads hsound hstep heof
    cursor.rest_suffix.length_le (block_eq_ok.1 h) hclean
  exact ⟨hend, hlaid⟩

/-- An arm without a diagnostic ends where it is meant to, and is laid out. -/
theorem branch_laidOut {ends : Token.Kind → Bool} (heof : ends .eof = true)
    (hline : ends .lineNo = true) {arm : Branch} (h : branch step ends cursor = .ok arm last)
    (hclean : last.Clean) :
    ends last.peek.kind = true ∧ arm.isLaidOut (endsElse last.peek.kind) = true := by
  simp only [branch, bind_eq_ok, current_apply, peek_apply] at h
  obtain ⟨_, _, ⟨⟩, _, _, ⟨⟩, h⟩ := h
  split at h
  next =>
    simp only [bind_eq_ok, skipSeparator_apply] at h
    obtain ⟨target, middle, -, _, _, ⟨⟩, statements, final, hblock, h⟩ := h
    cases statements with
    | nil =>
      cases h
      exact ⟨(block_laidOut hleads hsound hstep heof hblock hclean).1, rfl⟩
    | cons statement statements =>
      cases h
      obtain ⟨hend, hlaid⟩ := block_laidOut hleads hsound hstep heof hblock hclean
      rw [hline] at hlaid
      refine ⟨hend, Statement.listIsLaidOut_cons.2 ⟨rfl, ?_, ?_, hlaid⟩⟩
      · exact fun hisLine => by cases hisLine
      · exact fun hisCond => by cases hisCond
  next =>
    simp only [bind_eq_ok] at h
    obtain ⟨statements, _, hblock, ⟨⟩⟩ := h
    obtain ⟨hend, hlaid⟩ := block_laidOut hleads hsound hstep heof hblock hclean
    rw [hline] at hlaid
    exact ⟨hend, hlaid⟩

/-- An `IF` without a diagnostic is laid out. -/
theorem cond_laidOut {statement : Statement} (h : cond expr step cursor = .ok statement last)
    (hclean : last.Clean) : LaidOut statement last := by
  simp only [cond, bind_eq_ok, current_apply, expect_eq_ok, peek_apply] at h
  obtain ⟨_, _, ⟨⟩, condition, middle, -, _, _, ⟨-, rfl, rfl⟩, consequence, final, hconsequence, _,
    _, ⟨⟩, h⟩ := h
  split at h
  next helse =>
    simp only [bind_eq_ok, advance_apply] at h
    obtain ⟨_, _, ⟨⟩, alternative, _, halternative, ⟨⟩⟩ := h
    have hlater := (branch_keeps growth_leads.toDrift hleads _).of_ok halternative
    obtain ⟨-, hfirst⟩ :=
      branch_laidOut hleads hsound hstep rfl rfl hconsequence (hlater.clean hclean)
    obtain ⟨hend, hsecond⟩ := branch_laidOut hleads hsound hstep rfl rfl halternative hclean
    -- the first arm ends at `ELSE`, which an `IF` at its end would have taken
    rw [helse] at hfirst
    rw [hend] at hsecond
    exact ⟨Bool.and_eq_true_iff.2 ⟨hfirst, hsecond⟩, fun _ => hend⟩
  next helse =>
    cases h
    obtain ⟨hend, hfirst⟩ := branch_laidOut hleads hsound hstep rfl rfl hconsequence hclean
    have hline : endsElse last.peek.kind = true := by
      simp only [endsThen, Bool.decide_or, Bool.or_eq_true, decide_eq_true_eq] at hend
      rw [endsElse_iff]
      tauto
    rw [hline] at hfirst
    exact ⟨Bool.and_eq_true_iff.2 ⟨hfirst, rfl⟩, fun _ => hline⟩

/-- A loop without a diagnostic is laid out. -/
theorem loop_laidOut {statement : Statement} (h : loop expr step cursor = .ok statement last)
    (hclean : last.Clean) : LaidOut statement last := by
  simp only [loop, bind_eq_ok, current_apply, expect_eq_ok] at h
  obtain ⟨_, _, ⟨⟩, _, _, ⟨-, rfl, rfl⟩, _, _, ⟨-, rfl, rfl⟩, first, _, -, _, _, ⟨-, rfl, rfl⟩,
    bound, _, -, stride, _, -, _, _, -, body, middle, hbody, _, _, hend, ⟨⟩⟩ := h
  have hcleanBody : middle.Clean := (loopEnd_reads hend).2.2 hclean
  obtain ⟨-, hlaid⟩ := block_laidOut hleads hsound hstep rfl hbody hcleanBody
  -- the body ends at `NEXT`, not where a line does
  simp only [loopEnd, bind_eq_ok, expect_eq_ok] at hend
  obtain ⟨_, _, ⟨hnext, -, -⟩, -⟩ := hend
  rw [hnext] at hlaid
  exact ⟨hlaid, fun hcond => by cases hcond⟩

/-- Whatever a rule finds without a diagnostic is laid out. -/
theorem statementRule_laidOut (hmoves : ∀ power, Keeps Moves (expr power)) (hexpr : Sound expr)
    {found : Option Statement} (h : statementRule expr step cursor = .ok found last)
    (hclean : last.Clean) : ∀ statement ∈ found, LaidOut statement last := by
  rintro statement rfl
  have hreading := statementRule_reads hmoves hexpr hleads hsound h hclean
  -- an `IF` and a `FOR` hold other statements; any other statement is laid out by its reading
  by_cases hif : cursor.current.kind = .word .if_
  · rw [statementRule_apply, hif] at h
    obtain ⟨_, hcond, ⟨⟩⟩ := map_eq_ok.1 h
    exact cond_laidOut hleads hsound hstep hcond hclean
  · by_cases hfor : cursor.current.kind = .word .for_
    · rw [statementRule_apply, hfor] at h
      obtain ⟨_, hloop, ⟨⟩⟩ := map_eq_ok.1 h
      exact loop_laidOut hleads hsound hstep hloop hclean
    · have hkind : cursor.current.kind ≠ .eof := by
        intro heof
        rw [statementRule_apply, heof] at h
        cases h
      rw [tokens_eq_cons hkind] at hreading
      obtain ⟨hinside, hcond⟩ := hreading.isLaidOut hif hfor
      exact ⟨hinside, fun hisCond => by rw [hcond] at hisCond; cases hisCond⟩

end Blocks

/-- A rule that lays out what it finds still does so when its failures are recovered from. -/
theorem recover_laidOut {rule : Parse (Option Statement)}
    (hrule : ∀ cursor found last, rule cursor = .ok found last → last.Clean →
      ∀ statement ∈ found, LaidOut statement last) : StepLaysOut (recover rule) := by
  intro cursor found last h hclean
  unfold recover at h
  split at h
  next statement next hnext =>
    cases h
    -- the event of the statement is no diagnostic
    have hnote : next.Clean := fun entry hentry => hclean entry (List.mem_cons_of_mem _ hentry)
    rintro _ ⟨⟩
    obtain ⟨hinside, hbehind⟩ := hrule _ _ _ hnext hnote statement rfl
    exact ⟨hinside, hbehind⟩
  next =>
    cases h
    simp
  next =>
    cases h
    simp

/-- What the statement parser finds without recording a diagnostic is laid out. -/
theorem statement_laidOut (levels : Nat) : StepLaysOut (statement levels) := by
  induction levels with
  | zero =>
    refine recover_laidOut ?_
    intro cursor found last h
    cases h
  | succ levels ih =>
    refine recover_laidOut fun cursor found last h hclean => ?_
    exact statementRule_laidOut (statement_keeps growth_leads levels) (statement_reads levels) ih
      (expression_keeps drift_moves levels) (expression_reads levels) h hclean

end Grammar

/-- A program without a diagnostic is laid out as the parser leaves it: at every depth a line
number or nothing follows an `IF`. -/
theorem isLaidOut_of_isClean {bytes : List UInt8} (h : (parse bytes).isClean = true) :
    Statement.listIsLaidOut true true (parse bytes).program = true := by
  have hclean : (parse bytes).final.Clean := by
    rw [Cursor.clean_iff]
    simpa [Listing.isClean, Listing.diagnostics] using h
  -- the steps of the program are a block, which ends at the end of the listing
  let start := Cursor.ofTokens (tokenize bytes) []
  cases hrun : Grammar.blockWithin (Grammar.statement maxNesting) (· = .eof) start.tokens.length
    (Grammar.before start) with
  | mk statements last =>
    obtain ⟨hprogram, hfinal⟩ := Grammar.steps_of_blockWithin hrun
    change (parse bytes).program = statements at hprogram
    change (parse bytes).final = last.advance at hfinal
    rw [hfinal] at hclean
    obtain ⟨hend, hlaid, -⟩ := Grammar.blockWithin_laidOut
      (Grammar.statement_keeps growth_leads maxNesting) (Grammar.statement_reads maxNesting)
      (Grammar.statement_laidOut maxNesting) (decide_eq_true rfl)
      (show (Grammar.before start).rest.length ≤ start.tokens.length from Nat.le_refl _) hrun hclean
    rw [of_decide_eq_true hend] at hlaid
    rw [hprogram]
    exact hlaid

end LineBasic
