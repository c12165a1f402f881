import LineBasic.Compilation
import LineBasic.Proofs.Grammar.Rounds
import LineBasic.Proofs.Grammar.Soundness
import LineBasic.Proofs.Token.Order

/-!
# Listings statement by statement

A listing can be parsed with an observer, who is shown each step as soon as it is made, and the
statements are kept (`Grammar.observe`). What the observer is shown and what is kept agree, the
flags tell what had been found wrong by then, the C text that is written step by step is that of the
program as a whole, and a parse from where the first ended finds nothing more
(`streamed_eq_whole`). This holds for whatever a source delivers, broken off or not.

Both loops are compared round by round: the loop with the observer is a fold over the steps, and a
round adds to what was written and to the journal.
-/

namespace LineBasic

open Cursor

/-! ## Observed parses -/

namespace Grammar

/-- What comes of a parse with an observer. -/
structure Observed (σ : Type) where
  /-- What the observer has made of the steps. -/
  seen : σ
  /-- The statements. -/
  program : List Statement
  /-- Where the parse ended. -/
  last : Cursor

section Observers

variable {σ : Type} (watch : σ → Step → σ)

/-- At most `limit` steps, each of which is shown to the observer before the next one is made. -/
def observeWithin : (limit : Nat) → σ → List Statement → Cursor → Observed σ
  | 0, seen, program, cursor => ⟨seen, program, cursor⟩
  | limit + 1, seen, program, cursor =>
    if cursor.current.kind = .eof then
      ⟨seen, program, cursor⟩
    else
      let (found, next) := statement maxNesting cursor
      observeWithin limit (watch seen ⟨found, next.hasDiagnostics⟩) (program ++ found.toList)
        next.advance

/-- The parse from the current token to the end of the listing, step by step before an observer. -/
def observe (seen : σ) (cursor : Cursor) : Observed σ :=
  observeWithin watch cursor.tokens.length seen [] cursor

/-- The observer is shown the steps, and their statements are kept behind those kept before. -/
theorem observeWithin_eq (limit : Nat) (seen : σ) (program : List Statement) (cursor : Cursor) :
    observeWithin watch limit seen program cursor =
      ⟨(stepsWithin limit cursor).1.foldl watch seen,
        program ++ (stepsWithin limit cursor).1.filterMap (·.statement),
        (stepsWithin limit cursor).2⟩ := by
  induction limit generalizing seen program cursor with
  | zero => simp [observeWithin, stepsWithin]
  | succ limit ih =>
    by_cases hend : cursor.current.kind = .eof
    · rw [observeWithin, if_pos hend, stepsWithin_of_eof _ hend]
      simp
    · rw [observeWithin, if_neg hend, stepsWithin_of_ne_eof _ hend]
      dsimp only
      rw [ih, List.foldl_cons]
      -- a round that finds no statement is shown all the same, but nothing of it is kept
      cases (statement maxNesting cursor).1 <;> simp

/-- The observer sees the steps in order and changes none of them. -/
theorem observe_eq (seen : σ) (cursor : Cursor) :
    observe watch seen cursor =
      ⟨(steps cursor).1.foldl watch seen, (steps cursor).1.filterMap (·.statement),
        (steps cursor).2⟩ := by
  rw [observe, observeWithin_eq, List.nil_append]
  rfl

/-- At the end there is nothing to show. -/
theorem observe_of_eof (seen : σ) {cursor : Cursor} (h : cursor.current.kind = .eof) :
    observe watch seen cursor = ⟨seen, [], cursor⟩ := by
  rw [observe_eq, steps_of_eof h]
  rfl

end Observers

/-! ## Flags -/

variable {cursor : Cursor}

/-- A flag is up while there is a diagnostic. -/
theorem hasDiagnostics_eq (cursor : Cursor) :
    cursor.hasDiagnostics = !cursor.diagnostics.isEmpty := by
  rw [Bool.eq_iff_iff, hasDiagnostics, Bool.not_eq_true', ← Bool.not_eq_true, List.isEmpty_iff,
    diagnostics, List.reverse_eq_nil_iff, List.filterMap_eq_nil_iff, List.any_eq_true]
  simp [Option.isSome_iff_ne_none]

/-- The flag of a step tells whether there is a diagnostic once that many steps are made. -/
theorem flags_stepsWithin (limit : Nat) (cursor : Cursor) :
    (stepsWithin limit cursor).1.map (·.flagged) =
      (List.range (stepsWithin limit cursor).1.length).map fun k =>
        (stepsWithin (k + 1) cursor).2.hasDiagnostics := by
  induction limit generalizing cursor with
  | zero => rfl
  | succ limit ih =>
    by_cases hend : cursor.current.kind = .eof
    · rw [stepsWithin_of_eof _ hend]
      rfl
    · -- the first flag is up to the first step, and the others belong to the steps after it
      have hlater : ∀ k, (stepsWithin (k + 1) cursor).2 =
          (stepsWithin k (statement maxNesting cursor).2.advance).2 := fun k => by
        rw [stepsWithin_of_ne_eof _ hend]
      rw [stepsWithin_of_ne_eof _ hend, List.map_cons, List.length_cons, List.range_succ_eq_map,
        List.map_cons, List.map_map, ih, hlater]
      refine congrArg (_ :: ·) (List.map_congr_left fun k _ => ?_)
      rw [Function.comp_apply, hlater]

/-- What has been found wrong is not forgotten. -/
theorem hasDiagnostics_of_leads {earlier later : Cursor} (h : Leads earlier later)
    (hearlier : earlier.hasDiagnostics = true) : later.hasDiagnostics = true := by
  rw [hasDiagnostics, List.any_eq_true] at hearlier ⊢
  obtain ⟨entry, hentry, hwrong⟩ := hearlier
  exact ⟨entry, h.journal.subset hentry, hwrong⟩

namespace StepsTo

variable {last : Cursor} {steps : List Step}

/-- Once there is a diagnostic, all further steps are flagged. -/
theorem flagged (hsteps : StepsTo cursor steps last) (h : cursor.hasDiagnostics = true) :
    ∀ step ∈ steps, step.flagged = true := by
  induction hsteps with
  | nil => exact List.forall_mem_nil _
  | @cons cursor _ _ _ _ ih =>
    have hnext := hasDiagnostics_of_leads (statement_keeps growth_leads maxNesting cursor) h
    exact List.forall_mem_cons.2 ⟨hnext, ih hnext⟩

/-- No flag goes down again. -/
theorem pairwise_flags (h : StepsTo cursor steps last) :
    (steps.map (·.flagged)).Pairwise (· ≤ ·) := by
  induction h with
  | nil => exact .nil
  | cons _ hrest ih =>
    rw [List.map_cons, List.pairwise_cons]
    -- `a ≤ b` says that `b` is up if `a` is
    refine ⟨fun flag hflag hfirst => ?_, ih⟩
    obtain ⟨step, hstep, rfl⟩ := List.mem_map.1 hflag
    exact hrest.flagged hfirst step hstep

/-- The last flag tells whether there is a diagnostic at the end. Without steps there is one at the
end if there was one before. -/
theorem flag_getLast? (h : StepsTo cursor steps last) :
    (steps.getLast?.elim cursor.hasDiagnostics (·.flagged)) = last.hasDiagnostics := by
  induction h with
  | nil => rfl
  | @cons _ _ steps _ _ ih =>
    rw [← ih, List.getLast?_cons]
    cases steps.getLast? <;> rfl

end StepsTo

end Grammar

/-! ## Written text -/

theorem CText.lines_append (first second : List String) :
    CText.lines (first ++ second) = CText.lines first ++ CText.lines second := by
  simp [CText.lines]

/-- The text written step by step is that of the statements together. -/
theorem foldl_writeTo (style : Style) (steps : List Step) (written : String) :
    steps.foldl (Step.writeTo style) written =
      written ++ CText.lines (Statement.listToC style (steps.filterMap (·.statement))) := by
  induction steps generalizing written with
  | nil => simp [Statement.listToC, CText.lines]
  | cons step steps ih =>
    rw [List.foldl_cons, ih, Step.writeTo]
    cases hfound : step.statement with
    | none => rw [List.filterMap_cons_none hfound]
    | some statement =>
      rw [List.filterMap_cons_some hfound, Statement.listToC, CText.lines, CText.lines,
        List.map_cons, String.join_cons, String.append_assoc, String.append_assoc,
        String.append_assoc]

/-- A compilation writes the C text of its program. -/
theorem Compilation.output_ofDelivery (style : Style) (delivery : Delivery) :
    (Compilation.ofDelivery style delivery).output =
      programToC style (Listing.ofDelivery delivery).program :=
  congrArg style.wrap ((foldl_writeTo style _ "").trans String.empty_append)

/-! ## The end of a listing -/

namespace Stream

/-- Where no byte is left to read, the fault is looked for at once. -/
theorem settled_of_unread_nil {stream : Stream} (h : stream.unread = []) :
    stream.settled = { stream with fault := none } := by
  rw [settled, looksBeyond, h]
  rfl

/-- The end token is the last: the stream gives it again, and no other fault. -/
theorem next_rest_of_eof {stream : Stream} (h : stream.next.token.kind = .eof) :
    stream.next.rest.next = ⟨stream.next.token, none, stream.next.rest⟩ := by
  unfold next at h ⊢
  dsimp only at h ⊢
  split at h
  · simp only [settled_of_unread_nil]
    rfl
  next lexeme hlexeme => exact absurd h (Lexeme.first?_kind_ne_eof hlexeme)

/-- The last step of a scan meets the end. -/
theorem getLast?_scans (stream : Stream) :
    stream.scans.getLast?.map (·.rest.next) =
      stream.scans.getLast?.map fun scan => ⟨scan.token, none, scan.rest⟩ := by
  induction stream using Stream.induction with
  | last stream hend =>
    rw [scans_eq, if_pos hend]
    exact congrArg some (next_rest_of_eof hend)
  | step stream hend ih =>
    -- steps come after this one, so the last of them is the last of all
    have hrest : stream.next.rest.scans ≠ [] := by
      rw [scans_eq]
      split <;> simp
    rw [scans_eq, if_neg hend, List.getLast?_cons_of_ne_nil hrest]
    exact ih

end Stream

namespace Listing

/-- A parse ends on the end token. -/
theorem current_final (delivery : Delivery) :
    (Listing.ofDelivery delivery).final.current.kind = .eof := by
  obtain ⟨body, finish, htokens, hbody⟩ := (Stream.ofDelivery delivery).tokens_eq_body_append
  have hfinal : (Listing.ofDelivery delivery).final =
      (Grammar.steps (.start body finish [])).2 := by
    rw [← Cursor.ofTokens_append, ← htokens]
    rfl
  have hend : (Grammar.steps (.start body finish [])).2.tokens = [] :=
    Grammar.stepsWithin_tokens hbody (Nat.le_refl _)
  rw [hfinal, Cursor.current, hend]
  rfl

end Listing

/-- A parse with an observer shows and keeps the same statements, flags what had been found wrong by
then, and writes the C text of the program that it keeps. A parse from where it ended finds nothing
more, and no token follows the end token. -/
theorem streamed_eq_whole {σ : Type} (watch : σ → Step → σ) (seen : σ) (style : Style)
    (delivery : Delivery) :
    let listing := Listing.ofDelivery delivery
    let start := Cursor.ofTokens (Stream.ofDelivery delivery).tokens []
    let run := Grammar.observe watch seen start
    (run.seen = listing.steps.foldl watch seen ∧
      run.program = listing.steps.filterMap (·.statement) ∧ run.last = listing.final) ∧
    (listing.steps.map (·.flagged) = (List.range listing.steps.length).map (fun k =>
        !(Grammar.stepsWithin (k + 1) start).2.diagnostics.isEmpty) ∧
      (listing.steps.map (·.flagged)).Pairwise (· ≤ ·) ∧
      listing.steps.getLast?.any (·.flagged) = !run.last.diagnostics.isEmpty) ∧
    (Compilation.ofDelivery style delivery).output = programToC style run.program ∧
    Grammar.observe watch seen run.last = ⟨seen, [], run.last⟩ ∧
    listing.scans.getLast?.map (·.rest.next) =
      listing.scans.getLast?.map fun scan => ⟨scan.token, none, scan.rest⟩ := by
  intro listing start run
  have hrun : run = ⟨listing.steps.foldl watch seen, listing.program, listing.final⟩ :=
    Grammar.observe_eq watch seen start
  refine ⟨?_, ⟨?_, ?_, ?_⟩, ?_, ?_, ?_⟩
  · rw [hrun]
    exact ⟨rfl, rfl, rfl⟩
  · exact (Grammar.flags_stepsWithin _ start).trans
      (List.map_congr_left fun k _ => Grammar.hasDiagnostics_eq _)
  · exact (Grammar.steps_stepsTo start).pairwise_flags
  · have hlast := (Grammar.steps_stepsTo start).flag_getLast?
    rw [hrun, ← Grammar.hasDiagnostics_eq]
    refine Eq.trans ?_ hlast
    change listing.steps.getLast?.any (·.flagged) = listing.steps.getLast?.elim false (·.flagged)
    cases listing.steps.getLast? <;> rfl
  · rw [hrun]
    exact Compilation.output_ofDelivery style delivery
  · rw [hrun]
    exact Grammar.observe_of_eof watch seen (Listing.current_final delivery)
  · exact (Stream.ofDelivery delivery).getLast?_scans

end LineBasic
