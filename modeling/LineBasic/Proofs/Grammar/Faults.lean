import LineBasic.Proofs.Grammar.Soundness
import LineBasic.Proofs.Token.Order

/-!
# Order of diagnostics

The diagnostics of a listing stand in the order of the listing, each of them at one of its tokens
(`diagnostics_sorted`). What a diagnostic quotes is the literal of a token (`Cause.QuotesFrom`).

A parser that fails gives a place at or before the token that comes next, and so do the statements
that it holds, which fail before it does. All that a parser behind the current token can find wrong
from there on stands at the next token or later. So it is enough to know that what has been found
wrong does not stand behind the next token (`Cursor.Settled`). A statement and an expression start
at the current token, and may also fail there: before them it must not stand behind the current
token (`Cursor.Fresh`).
-/

namespace LineBasic

open Cursor Parse

/-! ## Places at or before others -/

/-- Standing no earlier is transitive. -/
theorem Location.not_before_trans {first second third : Location} (h : ¬second.Before first)
    (h' : ¬third.Before second) : ¬third.Before first := by
  unfold Before at *
  omega

/-- An expression stands at one of its tokens. -/
theorem ExprReading.exists_loc_before {declared : String → Bool} {ts us : List Token} {e : Expr}
    (h : ExprReading declared ts (.expr e) us)
    (hsorted : ts.Pairwise fun first second => first.loc.Before second.loc) :
    ∃ t ∈ ts, t.loc = e.loc ∧ ∀ u ∈ us, t.loc.Before u.loc := by
  have hfirst {t : Token} {ts us : List Token} (hus : us <:+ ts)
      (hsorted : (t :: ts).Pairwise fun first second => first.loc.Before second.loc) :
      ∃ v ∈ t :: ts, v.loc = t.loc ∧ ∀ u ∈ us, v.loc.Before u.loc :=
    ⟨t, List.mem_cons_self, rfl, fun u hu => List.rel_of_pairwise_cons hsorted (hus.mem hu)⟩
  generalize hphrase : Phrase.expr e = phrase at h
  -- all but an infix operator stand at or behind their first token
  induction h generalizing e with
  | name | int | str => cases hphrase; exact hfirst List.suffix_rfl hsorted
  | element _ _ _ hindices =>
    cases hphrase
    have hrest := (List.suffix_cons _ _).trans hindices.suffix
    exact hfirst (hrest.trans (List.suffix_cons _ _)) hsorted
  | bareCall _ _ hargs | call _ _ hargs => cases hphrase; exact hfirst hargs.suffix hsorted
  | unary _ he => cases hphrase; exact hfirst he.suffix hsorted
  | groupedCall _ _ _ hargs ih =>
    cases hphrase
    obtain ⟨t, ht, hloc, hbefore⟩ := ih hsorted.of_cons rfl
    exact ⟨t, List.mem_cons_of_mem _ ht, hloc,
      fun u hu => hbefore u (List.mem_cons_of_mem _ (hargs.suffix.mem hu))⟩
  | grouped _ _ _ ih =>
    cases hphrase
    obtain ⟨t, ht, hloc, hbefore⟩ := ih hsorted.of_cons rfl
    exact ⟨t, List.mem_cons_of_mem _ ht, hloc, fun u hu => hbefore u (List.mem_cons_of_mem _ hu)⟩
  | binary hleft _ hright =>
    -- it stands at the operator, behind the left operand
    cases hphrase
    refine ⟨_, hleft.suffix.subset List.mem_cons_self, rfl, fun u hu => ?_⟩
    exact List.rel_of_pairwise_cons (hsorted.sublist hleft.suffix.sublist) (hright.suffix.mem hu)
  | one | cons | noArguments | someArguments => cases hphrase

/-! ## What a diagnostic quotes -/

namespace Cause

/-- The literal that the message of a cause quotes. -/
def quoted? : Cause → Option String
  | badInteger literal => some literal
  | badStatement literal => some literal
  | badToken literal => some literal
  | illegalToken literal => some literal
  | _ => none

/-- What is quoted is the literal of one of the tokens. -/
def QuotesFrom (all : List Token) (cause : Cause) : Prop :=
  ∀ literal ∈ cause.quoted?, ∃ t ∈ all, t.literal = literal

/-- A cause that quotes nothing quotes no other text. -/
theorem QuotesFrom.of_none {all : List Token} {cause : Cause} (h : cause.quoted? = none) :
    cause.QuotesFrom all := by
  simp [QuotesFrom, h]

/-- A cause may quote the literal of a token of the listing. -/
theorem QuotesFrom.of_mem {all : List Token} {cause : Cause} {t : Token} (ht : t ∈ all)
    (h : cause.quoted? = some t.literal) : cause.QuotesFrom all := by
  simpa [QuotesFrom, h] using ⟨t, ht, rfl⟩

end Cause

namespace Cursor

variable {cursor later : Cursor}

/-! ## Tokens in view -/

/-- The tokens left and the end token. -/
def window (cursor : Cursor) : List Token := cursor.tokens ++ [cursor.endToken]

/-- The tokens in view start with the current one. -/
theorem window_eq_cons (cursor : Cursor) : ∃ tokens, cursor.window = cursor.current :: tokens := by
  obtain ⟨tokens, finish, arrays, journal⟩ := cursor
  cases tokens with
  | nil => exact ⟨[], rfl⟩
  | cons token tokens => exact ⟨_, rfl⟩

/-- The current token is in view, also at the end. -/
theorem current_mem_window (cursor : Cursor) : cursor.current ∈ cursor.window := by
  obtain ⟨tokens, h⟩ := cursor.window_eq_cons
  rw [h]
  exact List.mem_cons_self

/-- Moving on takes tokens out of view and brings none in. -/
theorem Moves.window (h : Moves cursor later) : later.window <:+ cursor.window := by
  obtain ⟨passed, htokens⟩ := h.tokens
  refine ⟨passed, ?_⟩
  rw [Cursor.window, Cursor.window, ← htokens, endToken, endToken, h.finish, List.append_assoc]

theorem Moves.advance (h : Moves cursor later) : Moves cursor.advance later.advance :=
  ⟨rest_suffix_rest h.tokens, h.finish, h.arrays, h.journal⟩

/-- The current token stands before all others in view. -/
theorem not_before_current
    (h : cursor.window.Pairwise fun first second => first.loc.Before second.loc) {t : Token}
    (ht : t ∈ cursor.window) : ¬t.loc.Before cursor.current.loc := by
  obtain ⟨tokens, hwindow⟩ := cursor.window_eq_cons
  rw [hwindow] at h ht
  rcases List.mem_cons.1 ht with rfl | ht
  · exact Location.Before.irrefl _
  · exact (List.rel_of_pairwise_cons h ht).asymm

/-! ## What has been found wrong -/

/-- The diagnostics so far stand in order, at tokens of the listing, and none behind the bound, and
what they quote are literals of tokens. -/
structure Filed (all : List Token) (bound : Location) (cursor : Cursor) : Prop where
  subset : cursor.window ⊆ all
  ordered : cursor.window.Pairwise fun first second => first.loc.Before second.loc
  sorted : cursor.diagnostics.Pairwise fun first second => ¬second.loc.Before first.loc
  placed : ∀ d ∈ cursor.diagnostics,
    (∃ t ∈ all, t.loc = d.loc) ∧ ¬bound.Before d.loc ∧ d.cause.QuotesFrom all

/-- What has been found wrong does not stand behind the next token. -/
def Settled (all : List Token) (cursor : Cursor) : Prop := Filed all cursor.peek.loc cursor

/-- What has been found wrong does not stand behind the current token. -/
def Fresh (all : List Token) (cursor : Cursor) : Prop := Filed all cursor.current.loc cursor

variable {all : List Token} {bound : Location}

/-- What is filed up to one place is filed up to any place behind it. -/
theorem Filed.weaken {larger : Location} (h : Filed all bound cursor)
    (hbound : ¬larger.Before bound) : Filed all larger cursor where
  subset := h.subset
  ordered := h.ordered
  sorted := h.sorted
  placed d hd :=
    ⟨(h.placed d hd).1, Location.not_before_trans (h.placed d hd).2.1 hbound, (h.placed d hd).2.2⟩

/-- Moving on changes nothing about what has been filed. -/
theorem Filed.moves (h : Filed all bound cursor) (hmoves : Moves cursor later) :
    Filed all bound later where
  subset := List.Subset.trans hmoves.window.subset h.subset
  ordered := h.ordered.sublist hmoves.window.sublist
  sorted := hmoves.diagnostics ▸ h.sorted
  placed := hmoves.diagnostics ▸ h.placed

/-- An event without a diagnostic files nothing. -/
theorem Filed.note (h : Filed all bound cursor) {event : Event}
    (hevent : event.diagnostic? = none) : Filed all bound (cursor.note event) := by
  have hsame : (cursor.note event).diagnostics = cursor.diagnostics := by
    rw [diagnostics_note, hevent, Option.toList_none, List.append_nil]
  exact ⟨h.subset, h.ordered, hsame ▸ h.sorted, hsame ▸ h.placed⟩

/-- A fault at a token that does not stand before the bound. -/
theorem Filed.fault (h : Filed all bound cursor) {loc : Location} {cause : Cause}
    (hloc : ∃ t ∈ all, t.loc = loc) (hbound : ¬loc.Before bound) (hquote : cause.QuotesFrom all) :
    Filed all loc (cursor.note (.recovered ⟨cause, loc⟩)) := by
  have hdiagnostics : (cursor.note (.recovered ⟨cause, loc⟩)).diagnostics =
      cursor.diagnostics ++ [⟨cause, loc⟩] := diagnostics_note _ _
  have hlast (d : Diagnostic) (hd : d ∈ cursor.diagnostics) : ¬loc.Before d.loc :=
    Location.not_before_trans (h.placed d hd).2.1 hbound
  refine ⟨h.subset, h.ordered, ?_, ?_⟩
  · rw [hdiagnostics, List.pairwise_append]
    refine ⟨h.sorted, List.pairwise_singleton _ _, fun d hd => ?_⟩
    exact List.forall_mem_singleton.2 (hlast d hd)
  · rw [hdiagnostics, List.forall_mem_append, List.forall_mem_singleton]
    exact ⟨fun d hd => ⟨(h.placed d hd).1, hlast d hd, (h.placed d hd).2.2⟩,
      hloc, Location.Before.irrefl _, hquote⟩

/-- The next token does not stand before the current one. -/
theorem Filed.not_before_peek (h : Filed all bound cursor) :
    ¬cursor.peek.loc.Before cursor.current.loc :=
  not_before_current h.ordered ((drift_moves.advance cursor).window.subset
    cursor.advance.current_mem_window)

/-- What does not stand behind the current token does not stand behind the next one. -/
theorem Fresh.settled (h : Fresh all cursor) : Settled all cursor :=
  Filed.weaken h (Filed.not_before_peek h)

/-- The next token is the current one after a move. -/
theorem Settled.advance (h : Settled all cursor) : Fresh all cursor.advance :=
  Filed.moves h (drift_moves.advance cursor)

/-- Moving on keeps the diagnostics behind the cursor. -/
theorem Settled.moves (h : Settled all cursor) (hmoves : Moves cursor later) :
    Settled all later := by
  -- the next token only gets later
  have hlater := hmoves.advance.window.subset later.advance.current_mem_window
  exact (Filed.moves h hmoves).weaken (not_before_current h.advance.ordered hlater)

/-- A declaration files nothing. -/
theorem Settled.declare (h : Settled all cursor) (name : String) (loc : Location)
    (dimensions : Nat) : Settled all (cursor.declare name loc dimensions) := by
  have hdeclared : Settled all { cursor with arrays := (name, loc) :: cursor.arrays } :=
    ⟨h.subset, h.ordered, h.sorted, h.placed⟩
  refine Filed.note hdeclared ?_
  split
  · rfl
  · rfl

end Cursor

/-! ## Parsers that report in order -/

namespace Parse

variable {α β : Type} {all : List Token} {x : Parse α} {cursor : Cursor}

/-- The run from the cursor leaves the diagnostics in order, and so does the report of the fault if
it fails. -/
def Reports (all : List Token) (x : Parse α) (cursor : Cursor) : Prop :=
  match x cursor with
  | .ok _ last => last.Settled all
  | .error d last => (last.note (.recovered d)).Settled all

namespace Reports

theorem pure (h : cursor.Settled all) (value : α) :
    Reports all (Pure.pure value : Parse α) cursor := h

/-- A successful run leaves the diagnostics in order. -/
theorem of_ok (h : Reports all x cursor) {value : α} {last : Cursor}
    (hrun : x cursor = .ok value last) : last.Settled all := by
  rw [Reports, hrun] at h
  exact h

/-- A sequence reports in order if its parts do, the second one from where a run of the first one
ends. -/
theorem bind_of_run {f : α → Parse β} (hx : Reports all x cursor)
    (hf : ∀ value last, x cursor = .ok value last → Reports all (f value) last) :
    Reports all (x >>= f) cursor := by
  rw [Reports, bind_apply]
  cases hrun : x cursor with
  | ok value last => exact hf value last hrun
  | error d last =>
    rw [Reports, hrun] at hx
    exact hx

/-- A sequence reports in order if its parts do, the second one from any settled cursor. -/
theorem bind {f : α → Parse β} (hx : Reports all x cursor)
    (hf : ∀ value last, last.Settled all → Reports all (f value) last) :
    Reports all (x >>= f) cursor :=
  hx.bind_of_run fun value last hrun => hf value last (hx.of_ok hrun)

/-- Changing the value that a parser gives changes nothing about what it reports. -/
theorem map {f : α → β} (hx : Reports all x cursor) : Reports all (f <$> x) cursor := by
  rw [map_eq_pure_bind]
  exact hx.bind fun _ _ h => .pure h _

theorem current {f : Token → Parse β} (h : Reports all (f cursor.current) cursor) :
    Reports all (Parse.current >>= f) cursor := h

theorem peek {f : Token → Parse β} (h : Reports all (f cursor.peek) cursor) :
    Reports all (Parse.peek >>= f) cursor := h

theorem get {f : Cursor → Parse β} (h : Reports all (f cursor) cursor) :
    Reports all (MonadState.get >>= f) cursor := h

/-- Moving on reports nothing, and the next token is the current one then. -/
theorem advance {f : Token → Parse β} (h : Reports all (f cursor.peek) cursor.advance) :
    Reports all (Parse.advance >>= f) cursor := h

theorem skipSeparator (h : cursor.Settled all) : Reports all Parse.skipSeparator cursor :=
  h.moves (drift_moves.skipSeparator cursor)

/-- A fault at the next token, which is not quoted. -/
theorem fail_peek (h : cursor.Settled all) {cause : Cause} (hquote : cause.quoted? = none) :
    Reports all (fail cause cursor.peek.loc : Parse α) cursor :=
  h.fault ⟨_, h.advance.subset cursor.advance.current_mem_window, rfl⟩ (Location.Before.irrefl _)
    (.of_none hquote)

/-- A fault at the current token. -/
theorem fail_current (h : cursor.Fresh all) {cause : Cause} (hquote : cause.QuotesFrom all) :
    Reports all (fail cause cursor.current.loc : Parse α) cursor :=
  (h.fault ⟨_, h.subset cursor.current_mem_window, rfl⟩ (Location.Before.irrefl _) hquote).weaken
    h.not_before_peek

/-- A fault of the current token, the literal of which is quoted. -/
theorem fail_quoted (h : cursor.Fresh all) {cause : Cause}
    (hquote : cause.quoted? = some cursor.current.literal) :
    Reports all (fail cause cursor.current.loc : Parse α) cursor :=
  .fail_current h (.of_mem (h.subset cursor.current_mem_window) hquote)

/-- A token that is missed is reported at the one that stands there. -/
theorem expect (h : cursor.Settled all) (kind : Token.Kind) :
    Reports all (Parse.expect kind) cursor := by
  refine .peek ?_
  split
  · exact h.advance.settled
  · exact .fail_peek h rfl

/-- A bounded loop over items reports in order if each item does. -/
theorem manyWithin (hitem : ∀ cursor : Cursor, cursor.Settled all → Reports all x cursor)
    (h : cursor.Settled all) (more : Cursor → Bool) (limit : Nat) :
    Reports all (Parse.manyWithin more x limit) cursor := by
  induction limit generalizing cursor with
  | zero => exact .pure h _
  | succ limit ih =>
    refine .get ?_
    split
    · exact (hitem _ h).bind fun _ _ h => (ih h).bind fun _ _ h => .pure h _
    · exact .pure h _

/-- A list with commas reports in order if each item does. -/
theorem commaList (hitem : ∀ cursor : Cursor, cursor.Settled all → Reports all x cursor)
    (h : cursor.Settled all) : Reports all (Parse.commaList x) cursor := by
  refine (hitem _ h).bind fun _ _ h => .bind ?_ fun _ _ h => .pure h _
  exact .get (.manyWithin (fun _ h => .advance (hitem _ h.advance.settled)) h _ _)

end Reports

end Parse

namespace Grammar

/-! ## Expressions -/

section Expressions

variable {all : List Token} {inner : Nat → Parse Expr} {cursor : Cursor}

/-- Too many levels are reported at the current token. -/
theorem tooDeep_reports {α : Type} (h : cursor.Fresh all) :
    Reports all (tooDeep : Parse α) cursor :=
  .current (.fail_current h (.of_none rfl))

/-- An integer that does not fit is reported at its own token, with its literal. -/
theorem integer_reports (h : cursor.Fresh all) : Reports all integer cursor := by
  refine .current ?_
  split
  · exact .pure h.settled _
  · exact .fail_quoted h rfl

/-- The parser of expressions reports in order, from the current token on. -/
def ReportsAll (all : List Token) (inner : Nat → Parse Expr) : Prop :=
  ∀ power (cursor : Cursor), cursor.Fresh all → Reports all (inner power) cursor

/-- A missing expression is reported at the next token. -/
theorem nextExpression_reports (hinner : ReportsAll all inner) (power : Nat)
    (h : cursor.Settled all) : Reports all (nextExpression inner power) cursor := by
  refine .peek ?_
  split
  · exact .fail_peek h rfl
  · exact .advance (hinner power _ h.advance)

/-- A list of expressions reports in order if the parser of expressions does. -/
theorem expressionList_reports (hinner : ReportsAll all inner) (h : cursor.Settled all) :
    Reports all (expressionList inner) cursor :=
  .commaList (fun _ h => nextExpression_reports hinner _ h) h

/-- A list of subscripts reports in order if the parser of expressions does. -/
theorem subscripts_reports (hinner : ReportsAll all inner) (h : cursor.Settled all) :
    Reports all (subscripts inner) cursor :=
  (expressionList_reports hinner h).bind fun _ _ h => (Reports.expect h _).bind
    fun _ _ h => .pure h _

/-- Arguments in parentheses report in order if the parser of expressions does. -/
theorem arguments_reports (hinner : ReportsAll all inner) (h : cursor.Settled all) :
    Reports all (arguments inner) cursor := by
  refine .peek ?_
  split
  · exact .advance (.pure h.advance.settled _)
  · exact subscripts_reports hinner h

/-- An operand that starts with a name reports in order if the parser of expressions does. -/
theorem named_reports (hinner : ReportsAll all inner) (h : cursor.Settled all) :
    Reports all (named inner) cursor := by
  refine .current (.peek (.get ?_))
  split
  · split
    · exact .advance ((subscripts_reports hinner h.advance.settled).bind fun _ _ h => .pure h _)
    · exact .pure h _
  · split
    · exact (expressionList_reports hinner h).bind fun _ _ h => .pure h _
    · exact .pure h _

/-- An expression in parentheses reports in order if the parser of expressions does. -/
theorem grouped_reports (hinner : ReportsAll all inner) (h : cursor.Settled all) :
    Reports all (grouped inner) cursor :=
  (nextExpression_reports hinner _ h).bind fun _ _ h => (Reports.expect h _).bind
    fun _ _ h => .pure h _

theorem unary_reports (hinner : ReportsAll all inner) (op : UnaryOp) (h : cursor.Settled all) :
    Reports all (unary inner op) cursor :=
  .current ((nextExpression_reports hinner _ h).bind fun _ _ h => .pure h _)

/-- A token that starts no operand is reported where it stands. -/
theorem operand_reports (hinner : ReportsAll all inner) (h : cursor.Fresh all) :
    Reports all (operand inner) cursor := by
  refine .current ?_
  split
  · exact named_reports hinner h.settled
  · exact (integer_reports h).bind fun _ _ h => .pure h _
  · exact .pure h.settled _
  · exact grouped_reports hinner h.settled
  · exact .fail_quoted h rfl
  · split
    · exact unary_reports hinner _ h.settled
    · exact .fail_current h (.of_none rfl)

/-- A function that cannot be called is reported where it stands, behind the current token. That is
where the expression starts or later, so what was reported before it does not stand behind it. -/
theorem called_reports (hinner : ReportsAll all inner) {origin : Cursor}
    (horigin : origin.Fresh all) (hmoves : Moves origin cursor) {declared : String → Bool}
    {left : Expr}
    (hleft : ExprReading declared origin.tokens (.expr left) cursor.rest) :
    Reports all (called inner left) cursor.advance := by
  have hsettled := (horigin.settled.moves hmoves).advance.settled
  unfold called
  split
  · exact (arguments_reports hinner hsettled).bind fun _ _ h => .pure h _
  next =>
    obtain ⟨t, ht, hloc, hbefore⟩ :=
      hleft.exists_loc_before (horigin.ordered.sublist (List.sublist_append_left _ _))
    have hwindow : t ∈ origin.window := List.mem_append_left _ ht
    -- what is left to read stands behind the callee, the end of the listing included
    have hnext (u : Token) (hu : u ∈ cursor.advance.window) : t.loc.Before u.loc := by
      rcases List.mem_append.1 hu with hu | hu
      · exact hbefore u hu
      · rw [List.mem_singleton.1 hu, endToken, finish_advance, hmoves.finish]
        exact (List.pairwise_append.1 horigin.ordered).2.2 t ht _ (List.mem_singleton_self _)
    have hpeek := hnext _ ((drift_moves.advance cursor.advance).window.mem
      cursor.advance.advance.current_mem_window)
    have hfiled := Filed.moves horigin (drift_moves.trans hmoves (drift_moves.advance cursor))
    rw [← hloc]
    exact (hfiled.fault ⟨t, horigin.subset hwindow, rfl⟩
      (not_before_current horigin.ordered hwindow) (.of_none rfl)).weaken hpeek.asymm

/-- What cannot be called is reported where it starts, which is no earlier than the expression does.
-/
theorem extend_reports (hinner : ReportsAll all inner) {origin : Cursor}
    (horigin : origin.Fresh all) (hmoves : Moves origin cursor) {declared : String → Bool}
    {left : Expr}
    (hleft : ExprReading declared origin.tokens (.expr left) cursor.rest) :
    Reports all (extend inner left) cursor := by
  have hsettled := (horigin.settled.moves hmoves).advance.settled
  refine .advance ?_
  split
  · exact (nextExpression_reports hinner _ hsettled).bind fun _ _ h => .pure h _
  · exact called_reports hinner horigin hmoves hleft

/-- The loop over extensions reports in order, along the reading of what it has come to. -/
theorem iterateWithin_reports (hinner : ReportsAll all inner)
    (hkeeps : ∀ power, Keeps Moves (inner power)) (hsound : Sound inner) {origin : Cursor}
    (horigin : origin.Fresh all) (hmoves : Moves origin cursor) {power limit : Nat} {left : Expr}
    (hleft : Extendable origin.isArray origin.tokens left cursor) :
    Reports all (iterateWithin (canExtend power) (extend inner) limit left) cursor := by
  -- the start of the expression stays fixed: a later round may still report a callee near it
  induction limit generalizing left cursor with
  | zero => exact .pure (horigin.settled.moves hmoves) _
  | succ limit ih =>
    refine .get ?_
    split
    next hmore =>
      refine (extend_reports hinner horigin hmoves hleft.reading).bind_of_run fun _ _ hrun => ?_
      have hnext := (extend_keeps drift_moves hkeeps left).of_ok hrun
      exact ih (drift_moves.trans hmoves hnext)
        (extend_reads hkeeps hsound hmoves.isArray hleft hmore hrun)
    next => exact .pure (horigin.settled.moves hmoves) _

/-- Expressions report in order. -/
theorem expression_reports (levels : Nat) : ReportsAll all (expression levels) := by
  induction levels with
  | zero => exact fun _ _ h => tooDeep_reports h
  | succ levels ih =>
    intro power cursor h
    have hkeeps := expression_keeps drift_moves levels
    have hsound := expression_reads levels
    refine (operand_reports ih h).bind_of_run fun left middle hrun => .get ?_
    exact iterateWithin_reports ih hkeeps hsound h ((operand_keeps drift_moves hkeeps).of_ok hrun)
      (operand_reads hkeeps hsound hrun)

end Expressions

/-! ## Statements -/

section Statements

variable {all : List Token} {expr : Nat → Parse Expr} {inner : Cursor → Option Statement × Cursor}
  {cursor : Cursor}

/-- A missing label is reported where it is missed. -/
theorem jumpTarget_reports (h : cursor.Settled all) : Reports all jumpTarget cursor := by
  refine .peek ?_
  split
  · exact .advance ((Reports.expect h.advance.settled _).bind fun _ _ h => .pure h _)
  · exact (Reports.expect h _).bind fun _ _ h => .pure h _

/-- A line number reports nothing. -/
theorem lineNumber_reports (h : cursor.Settled all) : Reports all lineNumber cursor := by
  refine .current (.peek ?_)
  split
  · exact .advance ((Reports.skipSeparator h.advance.settled).bind fun _ _ h => .pure h _)
  · exact .pure h _

/-- A missing name of a label is reported where it is missed. -/
theorem label_reports (h : cursor.Settled all) : Reports all label cursor :=
  .current ((Reports.expect h _).bind fun _ _ h => (Reports.skipSeparator h).bind
    fun _ _ h => .pure h _)

/-- A size that is missing or does not fit is reported where it stands. -/
theorem arraySize_reports (h : cursor.Settled all) : Reports all arraySize cursor := by
  -- the number becomes the current token, at which it may be found out of range
  refine (Reports.expect h _).bind_of_run fun token last hrun => ?_
  obtain ⟨-, -, rfl⟩ := expect_eq_ok.1 hrun
  exact integer_reports h.advance

/-- The declaration of an array reports what it misses where it is missed. -/
theorem arrayDecl_reports (h : cursor.Settled all) : Reports all arrayDecl cursor := by
  refine (Reports.expect h _).bind fun name _ h => (Reports.expect h _).bind fun _ _ h =>
    (Reports.commaList (fun _ h => arraySize_reports h) h).bind fun sizes _ h =>
    (Reports.expect h _).bind fun _ _ h => .bind ?_ fun _ _ h => .pure h _
  exact h.declare name.literal name.loc sizes.length

/-- A `DIM` reports what its arrays do. -/
theorem dim_reports (h : cursor.Settled all) : Reports all dim cursor :=
  .current ((Reports.commaList (fun _ h => arrayDecl_reports h) h).bind fun _ _ h =>
    (Reports.skipSeparator h).bind fun _ _ h => .pure h _)

/-- A jump reports what its label does. -/
theorem goto_reports (h : cursor.Settled all) : Reports all goto cursor :=
  .current ((jumpTarget_reports h).bind fun _ _ h => (Reports.skipSeparator h).bind
    fun _ _ h => .pure h _)

theorem gosub_reports (h : cursor.Settled all) : Reports all gosub cursor :=
  .current ((jumpTarget_reports h).bind fun _ _ h => (Reports.skipSeparator h).bind
    fun _ _ h => .pure h _)

/-- The way back from a subroutine reports nothing. -/
theorem ret_reports (h : cursor.Settled all) : Reports all ret cursor :=
  .current ((Reports.skipSeparator h).bind fun _ _ h => .pure h _)

/-- A word other than `GOTO` and `GOSUB` behind the value of an `ON` is reported where it stands. -/
theorem jumpKind_reports (h : cursor.Settled all) : Reports all jumpKind cursor := by
  refine .peek ?_
  split
  · exact .advance (.pure h.advance.settled _)
  · exact .advance (.pure h.advance.settled _)
  · exact .fail_peek h rfl

/-- The step over a statement leaves the diagnostics in order. -/
def StepReports (all : List Token) (inner : Cursor → Option Statement × Cursor) : Prop :=
  ∀ cursor : Cursor, cursor.Fresh all → (inner cursor).2.Settled all

/-- The rounds of a block leave the diagnostics in order if each statement does. -/
theorem Rounds.reports {ends : Token.Kind → Bool} {last : Cursor} {statements : List Statement}
    (hrounds : Rounds inner ends cursor statements last) (hinner : StepReports all inner)
    (h : cursor.Settled all) : last.Settled all := by
  induction hrounds with
  | nil => exact h
  | cons _ _ ih => exact ih (hinner _ h.advance)

/-- A block reports in order if each statement does. -/
theorem block_reports (hinner : StepReports all inner) (ends : Token.Kind → Bool)
    (h : cursor.Settled all) : Reports all (block inner ends) cursor :=
  (blockWithin_rounds _ cursor).reports hinner h

/-- An arm reports in order if each statement in it does. -/
theorem branch_reports (hinner : StepReports all inner) (ends : Token.Kind → Bool)
    (h : cursor.Settled all) : Reports all (branch inner ends) cursor := by
  refine .current (.peek ?_)
  split
  · refine (jumpTarget_reports h).bind fun _ _ h => (Reports.skipSeparator h).bind fun _ _ h =>
      (block_reports hinner ends h).bind fun statements _ h => ?_
    split
    · exact .pure h _
    · exact .pure h _
  · exact (block_reports hinner ends h).bind fun _ _ h => .pure h _

/-- An `IF` reports in order if its condition and its arms do. -/
theorem cond_reports (hexpr : ReportsAll all expr) (hinner : StepReports all inner)
    (h : cursor.Settled all) : Reports all (cond expr inner) cursor := by
  refine .current ((nextExpression_reports hexpr _ h).bind fun _ _ h => (Reports.expect h _).bind
    fun _ _ h => (branch_reports hinner _ h).bind fun _ _ h => .peek ?_)
  split
  · exact .advance ((branch_reports hinner _ h.advance.settled).bind fun _ _ h => .pure h _)
  · exact .pure h _

/-- An `ON` reports in order if its value does. -/
theorem on_reports (hexpr : ReportsAll all expr) (h : cursor.Settled all) :
    Reports all (on expr) cursor :=
  .current ((nextExpression_reports hexpr _ h).bind fun _ _ h => (jumpKind_reports h).bind
    fun _ _ h => (Reports.commaList (fun _ h => jumpTarget_reports h) h).bind
    fun _ _ h => (Reports.skipSeparator h).bind fun _ _ h => .pure h _)

/-- The step of a loop reports in order if the parser of expressions does. -/
theorem loopStep_reports (hexpr : ReportsAll all expr) (loc : Location) (h : cursor.Settled all) :
    Reports all (loopStep expr loc) cursor := by
  refine .peek ?_
  split
  · exact .advance (nextExpression_reports hexpr _ h.advance.settled)
  · exact .pure h _

/-- A head of a loop without its end is reported at the token that stands there. -/
theorem loopHeadEnd_reports (h : cursor.Settled all) : Reports all loopHeadEnd cursor := by
  refine .peek ?_
  split
  · exact .pure h _
  · exact (Reports.expect h _).bind fun _ _ h => .pure h _

/-- A counter of another name is reported at that name. -/
theorem loopEnd_reports (counter : String) (h : cursor.Settled all) :
    Reports all (loopEnd counter) cursor := by
  refine (Reports.expect h _).bind fun _ last h => .peek ?_
  split
  · refine .advance ?_
    split
    · refine .bind ?_ fun _ _ h => .skipSeparator h
      exact Filed.note h.advance.settled rfl
    · exact .skipSeparator h.advance.settled
  · exact .skipSeparator h

/-- A loop reports in order if its bounds and its body do. -/
theorem loop_reports (hexpr : ReportsAll all expr) (hinner : StepReports all inner)
    (h : cursor.Settled all) : Reports all (loop expr inner) cursor :=
  .current ((Reports.expect h _).bind fun _ _ h => (Reports.expect h _).bind fun _ _ h =>
    (nextExpression_reports hexpr _ h).bind fun _ _ h => (Reports.expect h _).bind fun _ _ h =>
    (nextExpression_reports hexpr _ h).bind fun _ _ h => (loopStep_reports hexpr _ h).bind
    fun _ _ h => (loopHeadEnd_reports h).bind fun _ _ h => (block_reports hinner _ h).bind
    fun _ _ h => (loopEnd_reports _ h).bind fun _ _ h => .pure h _)

/-- An assignment reports in order if its value does. -/
theorem assignTo_reports (hexpr : ReportsAll all expr) (target : Token) (indices : List Expr)
    (h : cursor.Settled all) : Reports all (assignTo expr target indices) cursor :=
  (Reports.expect h _).bind fun _ _ h => (nextExpression_reports hexpr _ h).bind
    fun _ _ h => (Reports.skipSeparator h).bind fun _ _ h => .pure h _

/-- An assignment to an element reports in order if its subscripts and its value do. -/
theorem assignElement_reports (hexpr : ReportsAll all expr) (h : cursor.Settled all) :
    Reports all (assignElement expr) cursor :=
  .current ((Reports.expect h _).bind fun _ _ h => (subscripts_reports hexpr h).bind
    fun _ _ h => assignTo_reports hexpr _ _ h)

/-- A call as a statement reports in order if its arguments do. -/
theorem call_reports (hexpr : ReportsAll all expr) (h : cursor.Settled all) :
    Reports all (call expr) cursor := by
  refine .current (.peek ?_)
  split
  · exact (Reports.pure h _).bind fun _ _ h => (Reports.skipSeparator h).bind fun _ _ h => .pure h _
  · split
    · exact .advance ((arguments_reports hexpr h.advance.settled).bind fun _ _ h =>
        (Reports.skipSeparator h).bind fun _ _ h => .pure h _)
    · exact (expressionList_reports hexpr h).bind fun _ _ h =>
        (Reports.skipSeparator h).bind fun _ _ h => .pure h _

/-- A statement that starts with a name reports in order if its expressions do. -/
theorem namedStatement_reports (hexpr : ReportsAll all expr) (h : cursor.Settled all) :
    Reports all (namedStatement expr) cursor := by
  refine .current (.peek ?_)
  split
  · exact assignTo_reports hexpr _ _ h
  · refine .get ?_
    split
    · exact assignElement_reports hexpr h
    · exact call_reports hexpr h

/-- Each kind of statement reports in order, from its own first token on. -/
theorem statementRule_reports (hexpr : ReportsAll all expr) (hinner : StepReports all inner)
    (h : cursor.Fresh all) : Reports all (statementRule expr inner) cursor := by
  refine .current ?_
  -- one case for each rule, and the tokens that start no statement in the end
  split
  · exact (Reports.skipSeparator h.settled).bind fun _ _ h => .pure h _
  · exact .pure h.settled _
  · exact .map (lineNumber_reports h.settled)
  · exact .map (label_reports h.settled)
  · exact .map (dim_reports h.settled)
  · exact .map (cond_reports hexpr hinner h.settled)
  · exact .map (on_reports hexpr h.settled)
  · exact .map (goto_reports h.settled)
  · exact .map (gosub_reports h.settled)
  · exact .map (ret_reports h.settled)
  · exact .map (loop_reports hexpr hinner h.settled)
  · exact .map (namedStatement_reports hexpr h.settled)
  · exact .fail_quoted h rfl
  · exact .fail_quoted h rfl
  · exact .fail_quoted h rfl

/-- What is reported when a statement is given up stands no earlier than what was reported before.
-/
theorem recover_reports {rule : Parse (Option Statement)} (h : Reports all rule cursor) :
    (recover rule cursor).2.Settled all := by
  unfold Reports at h
  unfold recover
  split
  next statement last hrun =>
    rw [hrun] at h
    exact Filed.note h rfl
  next last hrun =>
    rw [hrun] at h
    exact h
  next d last hrun =>
    rw [hrun] at h
    exact h.moves (drift_moves.synchronize _)

/-- Statements report in order. -/
theorem statement_reports (levels : Nat) : StepReports all (statement levels) := by
  induction levels with
  | zero => exact fun _ h => recover_reports (tooDeep_reports h)
  | succ levels ih =>
    exact fun _ h => recover_reports (statementRule_reports (expression_reports levels) ih h)

/-- The steps of a program leave the diagnostics in order. -/
theorem StepsTo.reports {last : Cursor} {steps : List Step} (hsteps : StepsTo cursor steps last)
    (h : cursor.Fresh all) : last.Fresh all := by
  induction hsteps with
  | nil => exact h
  | cons _ _ ih => exact ih (statement_reports maxNesting _ h).advance

end Statements

end Grammar

/-- The diagnostics of a listing stand in its order, each at one of its tokens. -/
theorem diagnostics_sorted (bytes : List UInt8) :
    ((parse bytes).diagnostics.Pairwise fun first second => ¬second.loc.Before first.loc) ∧
      ∀ d ∈ (parse bytes).diagnostics, ∃ t ∈ tokenize bytes, t.loc = d.loc := by
  obtain ⟨body, finish, htokens, -, -⟩ := tokenize_eq_body_append bytes
  have hstart : (Cursor.start body finish []).Fresh (tokenize bytes) := by
    have hwindow : (Cursor.start body finish []).window = tokenize bytes := htokens.symm
    refine ⟨hwindow ▸ List.Subset.refl _, hwindow ▸ ?_, .nil, List.forall_mem_nil _⟩
    exact (Stream.ofDelivery (.ofBytes bytes)).tokens_pairwise_before
  have hfinal : (Grammar.steps (.start body finish [])).2.Fresh (tokenize bytes) :=
    (Grammar.steps_stepsTo _).reports hstart
  rw [Listing.diagnostics, (parse_of_tokenize htokens).2]
  exact ⟨hfinal.sorted, fun d hd => (hfinal.placed d hd).1⟩

end LineBasic
