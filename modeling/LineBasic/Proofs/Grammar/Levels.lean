import LineBasic.Proofs.Spelling.Parse

/-!
# Levels that an expression takes

An expression that the parser finds with some levels left can be written so that it needs no more
than these (`expression_levels`), however it was written: parentheses that are not needed only
take levels.

The parser opens a level for each operand but the left one of an operator. What the loop has come
to may be the left operand of the next operator, so it has to be known not to need parentheses
there, or else to have a level to spare (`Fits`). It needs none because the operand before it
ended only where the next token binds no stronger.
-/

namespace LineBasic

open Cursor Parse

/-- A pair of parentheses takes a level of its own. -/
theorem groupLevels_le {needed : Bool} {levels limit : Nat} :
    groupLevels needed levels ≤ limit ↔ levels ≤ limit ∧ (needed = true → levels + 1 ≤ limit) := by
  unfold groupLevels
  split
  next hneeded =>
    simp only [hneeded, true_implies]
    omega
  next hneeded => simp [hneeded]

/-- Parentheses that a stronger operator does not need are not needed by a weaker one. -/
theorem groupLevels_isWeaker_mono {power larger levels : Nat} (expression : Expr)
    (h : power ≤ larger) :
    groupLevels (expression.isWeaker power) levels ≤
      groupLevels (expression.isWeaker larger) levels := by
  refine groupLevels_le.2 ⟨(groupLevels_le.1 (Nat.le_refl _)).1, fun hweak => ?_⟩
  refine (groupLevels_le.1 (Nat.le_refl _)).2 ?_
  by_contra hstrong
  rw [Expr.isWeaker_mono (Bool.not_eq_true _ ▸ hstrong) h] at hweak
  cases hweak

/-- Each expression of a list is one level below it. -/
theorem Expr.listLevels_le {expressions : List Expr} {limit : Nat}
    (h : ∀ e ∈ expressions, e.levels + 1 ≤ limit) : Expr.listLevels expressions ≤ limit := by
  induction expressions with
  | nil => exact Nat.zero_le _
  | cons head tail ih =>
    rw [Expr.listLevels]
    exact Nat.max_le.2 ⟨h head List.mem_cons_self, ih fun e he => h e (List.mem_cons_of_mem _ he)⟩

namespace Grammar

variable {inner : Nat → Parse Expr} {cursor last : Cursor} {levels power : Nat} {e : Expr}

/-- What the parser finds needs fewer than `levels` levels where it stands, and the next token
does not extend it. -/
def Levelled (parser : Nat → Parse Expr) (levels : Nat) : Prop :=
  ∀ power cursor e last, parser power cursor = .ok e last →
    groupLevels (e.isWeaker (power + 1)) e.levels + 1 ≤ levels ∧ canExtend power last = false

/-- What an inner parser reads leaves a level to spare. -/
theorem Levelled.levels_lt (h : Levelled inner levels) (hrun : inner power cursor = .ok e last) :
    e.levels + 1 ≤ levels := by
  have hgroup := (h _ _ _ _ hrun).1
  have hle := (groupLevels_le.1 (Nat.le_refl (groupLevels (e.isWeaker (power + 1)) e.levels))).1
  omega

/-- The expressions of a list stay within the levels that are left. -/
theorem expressionList_levels (hinner : Levelled inner levels) {expressions : List Expr}
    (h : expressionList inner cursor = .ok expressions last) :
    Expr.listLevels expressions ≤ levels := by
  have hrun := commaList_run h
  clear h
  refine Expr.listLevels_le ?_
  induction hrun with
  | one hvalue =>
    intro e he
    rw [List.mem_singleton.1 he]
    exact hinner.levels_lt (nextExpression_run hvalue)
  | cons hvalue _ _ ih =>
    exact List.forall_mem_cons.2 ⟨hinner.levels_lt (nextExpression_run hvalue), ih⟩

/-- The subscripts of an array element stay within the levels that are left. -/
theorem subscripts_levels (hinner : Levelled inner levels) {expressions : List Expr}
    (h : subscripts inner cursor = .ok expressions last) :
    Expr.listLevels expressions ≤ levels := by
  simp only [subscripts, bind_eq_ok] at h
  obtain ⟨_, _, hlist, _, _, -, ⟨⟩⟩ := h
  exact expressionList_levels hinner hlist

/-- The arguments of a call stay within the levels that are left. -/
theorem arguments_levels (hinner : Levelled inner levels) {expressions : List Expr}
    (h : arguments inner cursor = .ok expressions last) : Expr.listLevels expressions ≤ levels := by
  simp only [arguments, bind_eq_ok, peek_apply] at h
  obtain ⟨_, _, ⟨⟩, h⟩ := h
  split at h
  · simp only [bind_eq_ok] at h
    obtain ⟨_, _, -, ⟨⟩⟩ := h
    exact Nat.zero_le _
  · exact subscripts_levels hinner h

/-- What the loop has come to: it has a level to spare, or it needs no parentheses, neither where
it stands nor before the next token. -/
structure Fits (levels power : Nat) (e : Expr) (cursor : Cursor) : Prop where
  enough : e.levels ≤ levels
  here : e.isWeaker (power + 1) = true → e.levels + 1 ≤ levels
  next : ∀ stronger, extensionPower? cursor.peek.kind = some stronger →
    e.isWeaker stronger = true → e.levels + 1 ≤ levels

/-- An expression with a level to spare fits in parentheses as well. -/
theorem Fits.of_spare (h : e.levels + 1 ≤ levels) : Fits levels power e cursor :=
  ⟨Nat.le_of_succ_le h, fun _ => h, fun _ _ _ => h⟩

/-- Only an operation can need parentheses. -/
theorem Fits.of_not_weaker (hweak : ∀ power, e.isWeaker power = false) (h : e.levels ≤ levels) :
    Fits levels power e cursor := by
  refine ⟨h, fun hhere => ?_, fun stronger _ hnext => ?_⟩
  · rw [hweak] at hhere
    cases hhere
  · rw [hweak] at hnext
    cases hnext

/-- A name fits with the subscripts or the arguments it is read with. -/
theorem named_fits (hinner : Levelled inner levels) (h : named inner cursor = .ok e last) :
    Fits levels power e last := by
  simp only [named, bind_eq_ok, current_apply, peek_apply, get_apply] at h
  obtain ⟨_, _, ⟨⟩, _, _, ⟨⟩, _, _, ⟨⟩, h⟩ := h
  -- an array, with subscripts or without, and then any other name, with bare arguments or without
  split at h
  · split at h
    · simp only [bind_eq_ok] at h
      obtain ⟨_, _, -, indices, _, hindices, ⟨⟩⟩ := h
      exact .of_not_weaker (fun _ => rfl) (subscripts_levels hinner hindices)
    · cases h
      exact .of_not_weaker (fun _ => rfl) (Nat.zero_le _)
  · split at h
    · simp only [bind_eq_ok] at h
      obtain ⟨args, _, hargs, ⟨⟩⟩ := h
      exact .of_not_weaker (fun _ => rfl) (expressionList_levels hinner hargs)
    · cases h
      exact .of_not_weaker (fun _ => rfl) (Nat.zero_le _)

/-- An operand fits, whatever token it starts with. -/
theorem operand_fits (hinner : Levelled inner levels) (h : operand inner cursor = .ok e last) :
    Fits levels power e last := by
  rw [operand_apply] at h
  split at h
  · exact named_fits hinner h
  · simp only [bind_eq_ok] at h
    obtain ⟨literal, _, -, ⟨⟩⟩ := h
    exact .of_not_weaker (fun _ => rfl) (Nat.zero_le _)
  · cases h
    exact .of_not_weaker (fun _ => rfl) (Nat.zero_le _)
  · -- the parentheses that are there have taken a level
    simp only [grouped, bind_eq_ok] at h
    obtain ⟨inside, _, hinside, _, _, -, ⟨⟩⟩ := h
    exact .of_spare (hinner.levels_lt (nextExpression_run hinside))
  · cases h
  · split at h
    next op hop =>
      simp only [unary, bind_eq_ok, current_apply] at h
      obtain ⟨_, _, ⟨⟩, operand, _, hoperand, ⟨⟩⟩ := h
      refine .of_not_weaker (fun _ => rfl) ?_
      have hgroup := (hinner _ _ _ _ (nextExpression_run hoperand)).1
      have hmono : groupLevels (operand.isWeaker unaryPower) operand.levels ≤
          groupLevels (operand.isWeaker (unaryPower + 1)) operand.levels :=
        groupLevels_isWeaker_mono operand (Nat.le_succ _)
      rw [Expr.levels]
      omega
    next => cases h

/-- An operation that the loop puts together. Its right operand has ended, so the next token binds
no stronger than its operator. -/
theorem Fits.binary {op : BinaryOp} {left right : Expr} {loc : Location}
    (hinner : Levelled inner levels) (hpower : power < op.power)
    (hleft : groupLevels (left.isWeaker op.power) left.levels ≤ levels)
    (hright : inner op.power cursor = .ok right last) :
    Fits levels power (.binary op left right loc) last := by
  obtain ⟨hlevels, hend⟩ := hinner _ _ _ _ hright
  refine ⟨?_, fun hhere => ?_, fun stronger hstronger hnext => ?_⟩
  · rw [Expr.levels]
    exact Nat.max_le.2 ⟨hleft, hlevels⟩
  · have hweak : op.power < power + 1 := of_decide_eq_true hhere
    omega
  · have hweak : op.power < stronger := of_decide_eq_true hnext
    have hmore : canExtend op.power last = true := canExtend_iff.2 ⟨stronger, hstronger, hweak⟩
    rw [hend] at hmore
    cases hmore

/-- The longer expression fits if the shorter one did and its new operand does. -/
theorem extend_fits (hinner : Levelled inner levels) {left : Expr}
    (hleft : Fits levels power left cursor) (hmore : canExtend power cursor = true)
    (h : extend inner left cursor = .ok e last) : Fits levels power e last := by
  simp only [extend, bind_eq_ok, advance_apply] at h
  obtain ⟨_, _, ⟨⟩, h⟩ := h
  obtain ⟨stronger, hstronger, hlt⟩ := canExtend_iff.1 hmore
  -- a parenthesis makes a call of the expression, an operator the left side of an operation
  rcases extensionPower?_eq_some hstronger with ⟨-, hnone⟩ | ⟨op, hop, rfl⟩
  · rw [hnone] at h
    dsimp only at h
    rw [called_apply] at h
    split at h
    · simp only [bind_eq_ok] at h
      obtain ⟨args, _, hargs, ⟨⟩⟩ := h
      exact .of_not_weaker (fun _ => rfl) (arguments_levels hinner hargs)
    · cases h
  · rw [hop] at h
    simp only [bind_eq_ok] at h
    obtain ⟨right, _, hright, ⟨⟩⟩ := h
    exact .binary hinner hlt (groupLevels_le.2 ⟨hleft.enough, hleft.next _ hstronger⟩)
      (nextExpression_run hright)

/-- Every round keeps what the loop has come to within the levels. -/
theorem loopRun_fits (hinner : Levelled inner levels) {left : Expr}
    (hleft : Fits levels power left cursor)
    (h : LoopRun (canExtend power) (extend inner) left cursor e last) :
    Fits levels power e last := by
  induction h with
  | done => exact hleft
  | next hmore hnext _ ih => exact ih (extend_fits hinner hleft hmore hnext)

/-- What the parser finds with some levels left needs no more than these. -/
theorem expression_levels (levels : Nat) : Levelled (expression levels) levels := by
  induction levels with
  | zero =>
    intro power cursor e last h
    cases h
  | succ levels ih =>
    intro power cursor e last h
    have hmoves := expression_keeps drift_moves levels
    simp only [expression, expressionRule, bind_eq_ok] at h
    obtain ⟨left, middle, hleft, h⟩ := h
    -- the operand fits, and each round of the loop keeps it so
    have hfits : Fits levels power e last :=
      loopRun_fits ih (operand_fits ih hleft) (iterate_run h)
    exact ⟨Nat.succ_le_succ (groupLevels_le.2 ⟨hfits.enough, hfits.here⟩),
      not_canExtend_of_iterate hmoves h⟩

end Grammar

end LineBasic
