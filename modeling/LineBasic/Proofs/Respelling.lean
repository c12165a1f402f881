import LineBasic.Proofs.Leaves
import LineBasic.Proofs.Spelling.Program.Block
import LineBasic.Proofs.Spelling.Program.Spellable

/-!
# Programs survive being written and parsed

A program that was parsed without a diagnostic and calls no name that is declared before is what
the parser finds in its listing, up to places (`parse_listing_of_isClean`). Nothing is wrong with
the listing, and it is not nested too deeply either: it needs no more levels than what it was
parsed from.

The colon behind data has to follow it directly. With a space before the colon, as between other
statements, the payload would end in that space (`parse_listing_spaced`).
-/

namespace LineBasic

open Cursor Parse

/-- A program that is laid out as the parser leaves it, that can be written, and that fits in the
levels of the parser, is what the parser finds in its listing. -/
theorem parse_listing (gap : Nat) {program : List Statement}
    (hlaid : Statement.listIsLaidOut true true program = true)
    (h : Statement.listIsSpellable (fun _ => false) program = true)
    (hwithin : ∀ statement ∈ program,
      statement.Within (fun levels => Expr.FitsIn levels) maxNesting) :
    (parse (listing gap Mark.colon program)).isClean = true ∧
      (parse (listing gap Mark.colon program)).program.map Statement.unplaced =
        program.map Statement.unplaced := by
  obtain ⟨body, finish, htokens, hfaces⟩ := tokenizesTo_listing gap hlaid h
  obtain ⟨hprogram, hfinal⟩ := parse_of_tokenize htokens
  let start := Cursor.start body finish []
  have hshows : Shows (Mark.faces (Statement.listMarks gap Mark.colon .start program)) body [] :=
    ⟨body, (List.append_nil _).symm, hfaces⟩
  -- nothing stands before the first statement
  have hfirst : firstKind body ≠ .sym .colon := by
    cases program with
    | nil =>
      rw [Shows.eq_of_nil hshows]
      exact fun heq => nomatch heq
    | cons head tail =>
      obtain ⟨-, -, -, hfirst⟩ := exists_of_shows_listMarks hshows
      rw [hfirst, if_neg fun hand => nomatch hand.2]
      exact Statement.openingKind_ne_colon
  have hrest : (Grammar.before start).rest = afterSeparator body :=
    (afterSeparator_of_ne hfirst).symm
  have hopens (statement : Statement) (_ : statement.isLine = true → true = true) :
      decide (statement.openingKind = .eof) = false :=
    decide_eq_false Statement.openingKind_ne_eof
  have hspellable : Statement.listIsSpellable (Grammar.before start).isArray program = true := h
  have hblock : ∃ found last,
      Grammar.blockWithin (Grammar.statement maxNesting) (· = .eof) start.tokens.length
        (Grammar.before start) = (found, last) ∧
      found.map Statement.unplaced = program.map Statement.unplaced ∧
      Reaches (Grammar.before start) (Statement.listDeclarations program) [] last :=
    Grammar.exists_blockWithin hopens (fun statement _ => Grammar.parsesBack gap statement) hwithin
      hspellable hlaid hrest hshows
      (fun statement _ => Grammar.endsBefore_of_endsElse statement rfl) rfl (Nat.le_refl _)
  obtain ⟨found, last, hrun, hsame, hreaches⟩ := hblock
  obtain ⟨hsteps, hend⟩ := Grammar.steps_of_blockWithin hrun
  rw [Listing.isClean, Listing.diagnostics, hprogram, hfinal, hsteps, hend]
  refine ⟨?_, hsame⟩
  change last.diagnostics.isEmpty = true
  rw [hreaches.diagnostics]
  rfl

/-- A program that was parsed without a diagnostic and calls no name that is declared before is
what the parser finds in its listing, up to places. -/
theorem parse_listing_of_isClean (gap : Nat) (bytes : List UInt8)
    (h : (parse bytes).isClean = true)
    (hcalls : ∀ call ∈ Statement.listCalls (parse bytes).program,
      ∀ d ∈ Statement.listDeclarations (parse bytes).program, d.1 = call.1 → ¬d.2.Before call.2) :
    (parse (listing gap Mark.colon (parse bytes).program)).isClean = true ∧
      (parse (listing gap Mark.colon (parse bytes).program)).program.map Statement.unplaced =
        (parse bytes).program.map Statement.unplaced :=
  parse_listing gap (isLaidOut_of_isClean h) (listIsSpellable_of_isClean h hcalls)
    (program_within Grammar.passes_fitsIn bytes fun _ _ => trivial)

/-- The implied jump behind `ELSE` is written out, the call gets its parentheses, the loop its
step, and the data keeps its colon directly behind it. -/
theorem parse_listing_of_isClean_mixed :
    ∃ bytes, bytes = Utf8.encode
        "5 DATA a b:DIM A(3)\n10 FOR I=1 TO 3:IF A(I) THEN 5 ELSE *L:P\n20 NEXT I" ∧
      (parse bytes).isClean = true ∧
      listing 0 Mark.colon (parse bytes).program = Utf8.encode
        ("5 DATA a b: DIM A(3)\n" ++
        "10 FOR I = 1 TO 3 STEP 1 : IF A(I) THEN 5 ELSE GOTO *L : P()\n20 NEXT") ∧
      (parse (listing 0 Mark.colon (parse bytes).program)).isClean = true ∧
      (parse (listing 0 Mark.colon (parse bytes).program)).program.map Statement.unplaced =
        (parse bytes).program.map Statement.unplaced := by
  have hclean : (parse (Utf8.encode
      "5 DATA a b:DIM A(3)\n10 FOR I=1 TO 3:IF A(I) THEN 5 ELSE *L:P\n20 NEXT I")).isClean =
        true := by
    decide +kernel
  exact ⟨_, rfl, hclean, by decide +kernel,
    parse_listing_of_isClean 0 _ hclean (by decide +kernel)⟩

/-- With a space before every colon, the space behind the data becomes part of it. -/
theorem parse_listing_spaced :
    ∃ bytes, bytes = Utf8.encode "10 DATA abc:X = 1" ∧
      (parse bytes).isClean = true ∧ Statement.listCalls (parse bytes).program = [] ∧
      listing 0 Mark.spacedColon (parse bytes).program = Utf8.encode "10 DATA abc : X = 1" ∧
      (parse (listing 0 Mark.spacedColon (parse bytes).program)).isClean = true ∧
      (parse (listing 0 Mark.spacedColon (parse bytes).program)).program.map Statement.unplaced ≠
        (parse bytes).program.map Statement.unplaced := by
  refine ⟨_, rfl, by decide +kernel, by decide +kernel, by decide +kernel, by decide +kernel, ?_⟩
  -- the payloads already differ, as leaves of the two programs
  intro hsame
  have hleaves := congrArg Statement.listLeaves hsame
  revert hleaves
  decide +kernel

end LineBasic
