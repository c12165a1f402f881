import LineBasic.Proofs.Grammar.Drift

/-!
# Loops round by round

The loops of the parser are bounded by the number of tokens left. Every round takes in at least
one token, so a loop never stops because of its bound: the steps of a program, the extensions of
an expression and the items of a list go on as long as the tokens say so.
-/

namespace LineBasic

open Cursor Parse

/-! ## Loops in general -/

namespace Parse

variable {α : Type} {cursor last : Cursor}

/-- A loop whose condition fails ends. -/
theorem iterate_of_not {more : Cursor → Bool} {step : α → Parse α} {value : α}
    (hmore : more cursor = false) : iterate more step value cursor = .ok value cursor := by
  rw [iterate, bind_apply, get_apply]
  dsimp only
  cases cursor.tokens.length with
  | zero => rfl
  | succ limit =>
    rw [iterateWithin_succ_apply, hmore]
    rfl

section Rounds

variable {more : Cursor → Bool} {step : α → Parse α}
  (hfirst : ∀ cursor, more cursor = true → cursor.tokens ≠ [])
  (hless : ∀ value value' cursor last, more cursor = true → step value cursor = .ok value' last →
    last.tokens.length < cursor.tokens.length)

include hfirst hless

/-- A bound that is large enough is never reached, so one round more changes nothing. -/
theorem iterateWithin_succ {limit : Nat} (value : α) (h : cursor.tokens.length ≤ limit) :
    iterateWithin more step (limit + 1) value cursor =
      iterateWithin more step limit value cursor := by
  induction limit generalizing value cursor with
  | zero =>
    have hnil := List.eq_nil_of_length_eq_zero (Nat.le_zero.1 h)
    rw [iterateWithin_succ_apply, if_neg fun hmore => hfirst cursor hmore hnil]
    rfl
  | succ limit ih =>
    rw [iterateWithin_succ_apply, iterateWithin_succ_apply]
    split
    next hmore =>
      rw [bind_apply, bind_apply]
      cases hstep : step value cursor with
      | error diagnostic last => rfl
      | ok value' last =>
        -- the round took a token, so the bound for the others is one less
        have hlt := hless value value' cursor last hmore hstep
        exact ih value' (by omega)
    next => rfl

/-- More rounds than there are tokens change nothing. -/
theorem iterateWithin_eq_iterate {limit : Nat} (value : α) (h : cursor.tokens.length ≤ limit) :
    iterateWithin more step limit value cursor = iterate more step value cursor := by
  induction h with
  | refl => rfl
  | step hle ih => rw [iterateWithin_succ hfirst hless _ hle, ih]

/-- A loop that succeeds ends where its condition fails. -/
theorem not_more_of_iterateWithin {limit : Nat} {value value' : α}
    (hlimit : cursor.tokens.length ≤ limit)
    (h : iterateWithin more step limit value cursor = .ok value' last) : more last = false := by
  induction limit generalizing value cursor with
  | zero =>
    -- no token is left, so the condition cannot hold
    cases h
    rw [← Bool.not_eq_true]
    exact fun hmore => hfirst _ hmore (List.eq_nil_of_length_eq_zero (Nat.le_zero.1 hlimit))
  | succ limit ih =>
    rw [iterateWithin_succ_apply] at h
    split at h
    next hmore =>
      obtain ⟨next, middle, hstep, h⟩ := bind_eq_ok.1 h
      have hlt := hless _ _ _ _ hmore hstep
      exact ih (by omega) h
    next hmore =>
      cases h
      exact Bool.not_eq_true _ ▸ hmore

/-- A round that succeeds leaves the rounds after it. -/
theorem iterate_of_ok {value value' : α} (hmore : more cursor = true)
    (hstep : step value cursor = .ok value' last) :
    iterate more step value cursor = iterate more step value' last := by
  have hlt := hless value value' cursor last hmore hstep
  rw [← iterateWithin_eq_iterate hfirst hless value (Nat.le_succ _), iterateWithin_succ_apply,
    if_pos hmore, bind_apply, hstep]
  exact iterateWithin_eq_iterate hfirst hless value' (Nat.le_of_lt hlt)

end Rounds

/-- A run over items with commas between them is one item and what the loop makes of the others,
for every bound that is large enough. -/
theorem CommaRun.exists_manyWithin {item : Parse α} {values : List α} (hleads : Keeps Leads item)
    (h : CommaRun item cursor values last) (hlast : last.peek.kind ≠ .sym .comma) :
    ∃ value middle tail, values = value :: tail ∧ item cursor = .ok value middle ∧
      ∀ limit, middle.tokens.length ≤ limit →
        manyWithin (·.peekIs (.sym .comma)) (advance >>= fun _ => item) limit middle =
          .ok tail last := by
  induction h with
  | @one cursor last value hvalue =>
    refine ⟨value, last, [], rfl, hvalue, fun limit _ => ?_⟩
    cases limit with
    | zero => rfl
    | succ limit =>
      rw [manyWithin_succ_apply, if_neg (by simpa [Cursor.peekIs] using hlast)]
  | @cons cursor middle last value values hvalue hcomma _ ih =>
    obtain ⟨next, middle', tail, rfl, hnext, hmany⟩ := ih hlast
    refine ⟨value, middle, next :: tail, rfl, hvalue, fun limit hlimit => ?_⟩
    -- the comma is one of the tokens left, so there is a round for it
    have hle := (hleads.of_ok hnext).tokens.length_le
    have hlt := length_rest_lt_of_peek (hcomma ▸ by decide : middle.peek.kind ≠ .eof)
    rw [tokens_advance] at hle
    obtain ⟨fewer, rfl⟩ : ∃ fewer, limit = fewer + 1 := ⟨limit - 1, by omega⟩
    rw [manyWithin_succ_apply, if_pos (by simpa [Cursor.peekIs] using hcomma), bind_apply,
      bind_apply, advance_apply]
    dsimp only
    rw [hnext]
    dsimp only
    rw [bind_apply, hmany fewer (by omega)]
    rfl

/-- A run over items with commas between them is what the loop does, if no comma follows. -/
theorem CommaRun.commaList {item : Parse α} {values : List α} (hleads : Keeps Leads item)
    (h : CommaRun item cursor values last) (hlast : last.peek.kind ≠ .sym .comma) :
    commaList item cursor = .ok values last := by
  obtain ⟨value, middle, tail, rfl, hvalue, hmany⟩ := h.exists_manyWithin hleads hlast
  rw [Parse.commaList, bind_eq_ok]
  refine ⟨value, middle, hvalue, ?_⟩
  rw [bind_eq_ok]
  exact ⟨tail, last, hmany _ (Nat.le_refl _), rfl⟩

end Parse

/-! ## Extensions of an expression -/

namespace Grammar

variable {cursor : Cursor}

section Extensions

variable {inner : Nat → Parse Expr}

theorem peek_kind_of_canExtend {power : Nat} (h : canExtend power cursor = true) :
    cursor.peek.kind ≠ .eof := by
  intro heof
  unfold canExtend at h
  rw [heof] at h
  cases h

theorem tokens_ne_nil_of_canExtend {power : Nat} (h : canExtend power cursor = true) :
    cursor.tokens ≠ [] :=
  tokens_ne_nil_of_peek (peek_kind_of_canExtend h)

/-- An extension takes in at least the token that it starts with. -/
theorem length_extend_lt (h : ∀ power, Keeps Moves (inner power)) {left value : Expr}
    {last : Cursor} (hpeek : cursor.peek.kind ≠ .eof)
    (hrun : extend inner left cursor = .ok value last) :
    last.tokens.length < cursor.tokens.length := by
  rw [extend, bind_eq_ok] at hrun
  obtain ⟨token, middle, hadvance, hrun⟩ := hrun
  rw [advance_apply, EStateM.Result.ok.injEq] at hadvance
  obtain ⟨rfl, rfl⟩ := hadvance
  -- behind the operator or the parenthesis the extension only moves on
  have hmoves : Moves cursor.advance last := by
    cases hop : BinaryOp.ofKind? cursor.peek.kind with
    | some op =>
      rw [hop] at hrun
      exact (Keeps.bind drift_moves (nextExpression_keeps drift_moves h _)
        fun _ => .pure drift_moves _).of_ok hrun
    | none =>
      rw [hop] at hrun
      exact (called_keeps drift_moves h left).of_ok hrun
  have hle := hmoves.tokens.length_le
  have hlt := length_rest_lt_of_peek hpeek
  rw [tokens_advance] at hle
  omega

/-- One extension of an expression leaves the extensions after it. -/
theorem iterate_extend (h : ∀ power, Keeps Moves (inner power)) {power : Nat} {left value : Expr}
    {last : Cursor} (hmore : canExtend power cursor = true)
    (hextend : extend inner left cursor = .ok value last) :
    iterate (canExtend power) (extend inner) left cursor =
      iterate (canExtend power) (extend inner) value last := by
  refine iterate_of_ok (fun _ => tokens_ne_nil_of_canExtend) ?_ hmore hextend
  intro left value cursor last hmore
  exact length_extend_lt h (peek_kind_of_canExtend hmore)

/-- What the loop over extensions leaves behind an expression does not extend it. -/
theorem not_canExtend_of_iterate (h : ∀ power, Keeps Moves (inner power)) {power : Nat}
    {left value : Expr} {last : Cursor}
    (hrun : iterate (canExtend power) (extend inner) left cursor = .ok value last) :
    canExtend power last = false := by
  rw [iterate, bind_apply, get_apply] at hrun
  refine not_more_of_iterateWithin (fun _ => tokens_ne_nil_of_canExtend) ?_ (Nat.le_refl _) hrun
  intro left value cursor last hmore
  exact length_extend_lt h (peek_kind_of_canExtend hmore)

end Extensions

/-! ## The steps of a program -/

/-- A bound that is large enough is never reached, so one step more changes nothing. -/
theorem stepsWithin_succ {limit : Nat} (h : cursor.tokens.length ≤ limit) :
    stepsWithin (limit + 1) cursor = stepsWithin limit cursor := by
  induction limit generalizing cursor with
  | zero =>
    refine stepsWithin_of_eof 1 ?_
    rw [Cursor.current, List.eq_nil_of_length_eq_zero (Nat.le_zero.1 h)]
    rfl
  | succ limit ih =>
    by_cases heof : cursor.current.kind = .eof
    · rw [stepsWithin_of_eof _ heof, stepsWithin_of_eof _ heof]
    · -- the step took a token, so the bound for the others is one less
      have hlt := length_statement_advance_lt maxNesting heof
      rw [stepsWithin_of_ne_eof _ heof, stepsWithin_of_ne_eof _ heof, ih (by omega)]

/-- More steps than there are tokens change nothing. -/
theorem stepsWithin_eq_steps {limit : Nat} (h : cursor.tokens.length ≤ limit) :
    stepsWithin limit cursor = steps cursor := by
  induction h with
  | refl => rfl
  | step hle ih => rw [stepsWithin_succ hle, ih]

theorem steps_of_eof (h : cursor.current.kind = .eof) : steps cursor = ([], cursor) :=
  stepsWithin_of_eof _ h

/-- The steps from a token are that over the statement there and those after it. -/
theorem steps_of_ne_eof (h : cursor.current.kind ≠ .eof) :
    steps cursor =
      (⟨(statement maxNesting cursor).1, (statement maxNesting cursor).2.hasDiagnostics⟩ ::
          (steps (statement maxNesting cursor).2.advance).1,
        (steps (statement maxNesting cursor).2.advance).2) := by
  have hlt := length_statement_advance_lt maxNesting h
  rw [← stepsWithin_eq_steps (Nat.le_succ _), stepsWithin_of_ne_eof _ h,
    stepsWithin_eq_steps (Nat.le_of_lt hlt)]

theorem stepsWithin_advance (limit : Nat) (before : Cursor) :
    (stepsWithin limit before.advance).1.filterMap (·.statement) =
        (blockWithin (statement maxNesting) (· = .eof) limit before).1 ∧
      (stepsWithin limit before.advance).2 =
        (blockWithin (statement maxNesting) (· = .eof) limit before).2.advance := by
  induction limit generalizing before with
  | zero => exact ⟨rfl, rfl⟩
  | succ limit ih =>
    by_cases heof : before.advance.current.kind = .eof
    · have hpeek : before.peek.kind = .eof := heof
      rw [stepsWithin_of_eof _ heof, blockWithin_of_ends (decide_eq_true hpeek)]
      exact ⟨rfl, rfl⟩
    · have hpeek : before.peek.kind ≠ .eof := heof
      rw [stepsWithin_of_ne_eof _ heof, blockWithin_of_not_ends (decide_eq_false hpeek)]
      cases statement maxNesting before.advance with
      | mk found next =>
        obtain ⟨hfound, hlast⟩ := ih next
        refine ⟨?_, hlast⟩
        cases found with
        | none => exact hfound
        | some statement => exact congrArg (statement :: ·) hfound

/-- The cursor on a token before the current one, which stands for nothing. -/
def before (cursor : Cursor) : Cursor :=
  { cursor with tokens := cursor.endToken :: cursor.tokens }

/-- The steps of a program are the rounds of a block that only the end of the listing ends. -/
theorem steps_of_blockWithin {statements : List Statement} {last : Cursor}
    (h : blockWithin (statement maxNesting) (· = .eof) cursor.tokens.length (before cursor) =
      (statements, last)) :
    (steps cursor).1.filterMap (·.statement) = statements ∧ (steps cursor).2 = last.advance := by
  have hsteps := stepsWithin_advance cursor.tokens.length (before cursor)
  rw [h] at hsteps
  exact hsteps

/-- A first statement, what it leaves behind, and the steps after it. -/
theorem steps_of_statement {found : Option Statement} {next : Cursor}
    (h : cursor.current.kind ≠ .eof) (hfound : statement maxNesting cursor = (found, next)) :
    (steps cursor).1.filterMap (·.statement) =
        found.toList ++ (steps next.advance).1.filterMap (·.statement) ∧
      (steps cursor).2 = (steps next.advance).2 := by
  rw [steps_of_ne_eof h, hfound]
  cases found <;> exact ⟨rfl, rfl⟩

/-- A statement that comes to the end of the listing is the last one. -/
theorem steps_of_last {found : Option Statement} {next : Cursor}
    (h : cursor.current.kind ≠ .eof) (hfound : statement maxNesting cursor = (found, next))
    (hrest : next.rest = []) :
    (steps cursor).1.filterMap (·.statement) = found.toList ∧ (steps cursor).2 = next.advance := by
  have heof : next.advance.current.kind = .eof := peek_kind_of_rest_nil hrest
  have hsteps := steps_of_statement h hfound
  rw [steps_of_eof heof] at hsteps
  exact ⟨hsteps.1.trans (List.append_nil _), hsteps.2⟩

end Grammar

end LineBasic
