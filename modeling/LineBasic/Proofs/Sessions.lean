import Mathlib.Data.List.Forall2
import LineBasic.Session
import LineBasic.Proofs.Declarations
import LineBasic.Proofs.LineIsolation
import LineBasic.Proofs.Lowering.Places
import LineBasic.Proofs.Streaming
import LineBasic.Proofs.Text.Utf8

/-!
# Sessions and files

A session compiles one line after another, each as a listing of its own, and a file is compiled as a
whole. For lines that are well-formed on their own, start with a line number and declare no array,
both give the same C text: the answers of the session are, one after another, the C text of the file
(`joined_answers_eq_output`).

On the side of the session, what it reads is the lines, some of them without a carriage return at
their end, which changes no token (`forall₂_lines`, `parse_lineBreak`). On the side of the file, the
first line is parsed on its own, since the one after it starts with a line number, and the others
are parsed further down, with no array known; that is not in the C text
(`programToC_parse_lineFeed`).
-/

namespace LineBasic

/-! ## Line breaks and the C text -/

/-- What is found in a listing is told by its tokens up to their places. -/
theorem steps_unplaced {bytes : List UInt8} {body : List Token} {finish : Location}
    (htokens : tokenize bytes = body ++ [.endAt finish])
    (hbody : ∀ token ∈ body, token.kind ≠ .eof) :
    let unplaced := Grammar.steps (.start (body.map (·.relocate fun _ => .start)) .start [])
    unplaced.1.filterMap (·.statement) =
        (parse bytes).program.map (·.relocate fun _ => .start) ∧
      unplaced.2.diagnostics = (parse bytes).diagnostics.map (·.relocate fun _ => .start) := by
  obtain ⟨hprogram, hfinal⟩ := parse_of_tokenize htokens
  rw [Listing.diagnostics, hprogram, hfinal]
  exact Grammar.steps_relocate (fun _ => .start) (.start body finish []) (.start _ .start []) hbody
    rfl rfl rfl fun _ => rfl

/-- A line break at the end changes neither whether a listing is well-formed nor its C text. -/
theorem parse_lineBreak {cut : UInt8} (hcut : Byte.isLineBreak cut = true) (left : List UInt8)
    (style : Style) :
    (parse (left ++ [cut])).isClean = (parse left).isClean ∧
      programToC style (parse (left ++ [cut])).program =
        programToC style (parse left).program := by
  obtain ⟨body, finish, htokens, hbody, -⟩ := tokenize_eq_body_append left
  obtain ⟨finish', htokens'⟩ := tokenize_lineBreak hcut left
  rw [htokens, List.dropLast_concat] at htokens'
  -- both listings have the same tokens but for the place of the end
  obtain ⟨hprogram, hdiagnostics⟩ := steps_unplaced htokens hbody
  obtain ⟨hprogram', hdiagnostics'⟩ := steps_unplaced htokens' hbody
  rw [hprogram] at hprogram'
  rw [hdiagnostics] at hdiagnostics'
  constructor
  · have hempty := congrArg List.isEmpty hdiagnostics'
    rw [List.isEmpty_map, List.isEmpty_map] at hempty
    exact hempty.symm
  · have htext := congrArg (programToC style) hprogram'
    rw [programToC_relocate, programToC_relocate] at htext
    exact htext.symm

/-- A listing that starts with a line number has a first token, which is not the end. -/
theorem exists_body_of_numbered {bytes : List UInt8}
    (h : (tokenize bytes).head?.map (·.kind) = some .lineNo) :
    ∃ first rest finish, tokenize bytes = (first :: rest) ++ [.endAt finish] ∧
      first.kind = .lineNo ∧ ∀ token ∈ first :: rest, token.kind ≠ .eof := by
  obtain ⟨body, finish, htokens, hbody, -⟩ := tokenize_eq_body_append bytes
  rw [htokens] at h
  cases body with
  | nil => cases h
  | cons first rest => exact ⟨first, rest, finish, htokens, Option.some.inj h, hbody⟩

namespace Session

/-! ## Lines that stand on their own -/

/-- Lines that can be compiled one by one. -/
structure Independent (line : List UInt8) : Prop where
  /-- The line is UTF-8. -/
  valid : (Utf8.decode? line).isSome = true
  /-- It is a single line. -/
  single : 0x0A ∉ line
  /-- It starts with a line number. -/
  numbered : (tokenize line).head?.map (·.kind) = some .lineNo
  /-- It is well-formed on its own. -/
  clean : (parse line).isClean = true
  /-- It has no `DIM` in it. -/
  plain : ∀ token ∈ tokenize line, token.kind ≠ .word .dim

instance (line : List UInt8) : Decidable (Independent line) :=
  decidable_of_iff
    ((Utf8.decode? line).isSome = true ∧ 0x0A ∉ line ∧
      (tokenize line).head?.map (·.kind) = some .lineNo ∧ (parse line).isClean = true ∧
      ∀ token ∈ tokenize line, token.kind ≠ .word .dim)
    ⟨fun ⟨valid, single, numbered, clean, plain⟩ => ⟨valid, single, numbered, clean, plain⟩,
      fun ⟨valid, single, numbered, clean, plain⟩ => ⟨valid, single, numbered, clean, plain⟩⟩

theorem Independent.ne_nil {line : List UInt8} (h : Independent line) : line ≠ [] := by
  rintro rfl
  exact absurd h.numbered (by decide)

/-! ## What a session reads -/

/-- A line is read as it is, or without the carriage return at its end. -/
def ReadAs (line given : List UInt8) : Prop :=
  line = given ∨ line = given ++ [0x0D]

/-- Bytes in front of the first line feed are put aside. -/
theorem linesAfter_append {line : List UInt8} (h : 0x0A ∉ line) (before rest : List UInt8) :
    linesAfter before (line ++ rest) = linesAfter (line.reverse ++ before) rest := by
  induction line generalizing before with
  | nil => rfl
  | cons b line ih =>
    rw [List.mem_cons, not_or] at h
    rw [List.cons_append, linesAfter, if_neg (Ne.symm h.1), ih h.2]
    simp

/-- The last line may lack its line feed. -/
theorem lines_of_not_mem {line : List UInt8} (h : 0x0A ∉ line) (hne : line ≠ []) :
    lines line = [line] := by
  have hlines := linesAfter_append h [] []
  rw [List.append_nil, List.append_nil] at hlines
  rw [lines, hlines, linesAfter]
  simp [hne]

/-- The first line is given without its line feed, and without a carriage return before that. -/
theorem exists_lines_lineFeed {line : List UInt8} (h : 0x0A ∉ line) (rest : List UInt8) :
    ∃ given, ReadAs line given ∧ lines (line ++ 0x0A :: rest) = given :: lines rest := by
  rw [lines, linesAfter_append h, List.append_nil, linesAfter, if_pos rfl]
  dsimp only
  split
  -- the latest byte of the line is looked at, so the line is held in reverse
  next hreturn =>
    obtain ⟨before, hbefore⟩ := List.head?_eq_some_iff.1 hreturn
    refine ⟨_, .inr ?_, rfl⟩
    rw [hbefore, List.tail_cons, ← List.reverse_cons, ← hbefore, List.reverse_reverse]
  next => exact ⟨_, .inl (List.reverse_reverse _).symm, rfl⟩

/-- A session reads the lines of a file, whether or not the last of them is ended. -/
theorem forall₂_lines {ending : List UInt8} (hending : ending = [] ∨ ending = [0x0A])
    {lines : List (List UInt8)} (hne : lines ≠ []) (h : ∀ line ∈ lines, Independent line) :
    List.Forall₂ ReadAs lines (Session.lines (List.intercalate [0x0A] lines ++ ending)) := by
  induction lines with
  | nil => exact absurd rfl hne
  | cons line lines ih =>
    have hline := h line List.mem_cons_self
    obtain ⟨given, hgiven, hread⟩ := exists_lines_lineFeed hline.single []
    -- the last line is ended or not, and a line feed ends all others
    cases lines with
    | nil =>
      rw [List.intercalate_singleton]
      rcases hending with rfl | rfl
      · rw [List.append_nil, lines_of_not_mem hline.single hline.ne_nil]
        exact .cons (.inl rfl) .nil
      · rw [hread]
        exact .cons hgiven .nil
    | cons next lines =>
      have hothers := ih (List.cons_ne_nil _ _) (List.forall_mem_cons.1 h).2
      obtain ⟨given, hgiven, hread⟩ := exists_lines_lineFeed hline.single
        (List.intercalate [0x0A] (next :: lines) ++ ending)
      rw [List.intercalate_cons_cons, List.append_assoc, List.append_assoc, List.singleton_append,
        hread]
      exact .cons hgiven hothers

/-! ## What a session answers -/

section Answers

variable (style : Style) (color : Bool)

/-- A line that is valid text is so without the carriage return at its end. -/
theorem ReadAs.valid {line given : List UInt8} (h : ReadAs line given)
    (hline : (Utf8.decode? line).isSome = true) : (Utf8.decode? given).isSome = true := by
  rcases h with rfl | rfl
  · exact hline
  · have hascii : (0x0D : UInt8) < 0x80 := by decide
    rw [Utf8.isSome_decode?, Utf8.units_append_ascii hascii, List.all_append,
      Bool.and_eq_true] at hline
    rw [Utf8.isSome_decode?]
    exact hline.1

/-- The answer to a line is its C text, if nothing is wrong with it. -/
theorem reply_turn {line given : List UInt8} (h : ReadAs line given)
    (hclean : (parse line).isClean = true) :
    (turn style color given).reply = programToC style (parse line).program := by
  have hsame : (parse line).isClean = (parse given).isClean ∧
      programToC style (parse line).program = programToC style (parse given).program := by
    rcases h with rfl | rfl
    · exact ⟨rfl, rfl⟩
    · exact parse_lineBreak (by decide) given style
  have hgiven : (compile style given).isClean = true := hsame.1.symm.trans hclean
  rw [turn, hsame.2]
  dsimp only
  rw [if_pos hgiven]
  exact Compilation.output_ofDelivery style _

/-- By induction on the lines: each turn of the session answers one, and the session goes on. -/
theorem overLines_of_forall₂ {lines given : List (List UInt8)} (h : List.Forall₂ ReadAs lines given)
    (hlines : ∀ line ∈ lines, Independent line) :
    (overLines style color given).complete = true ∧
      (overLines style color given).turns.map (·.reply) =
        lines.map fun line => programToC style (parse line).program := by
  induction h with
  | nil => exact ⟨rfl, rfl⟩
  | @cons line given lines givens hread _ ih =>
    obtain ⟨hline, hothers⟩ := List.forall_mem_cons.1 hlines
    obtain ⟨hcomplete, hreplies⟩ := ih hothers
    obtain ⟨text, htext⟩ := Option.isSome_iff_exists.1 (hread.valid hline.valid)
    rw [overLines, htext]
    refine ⟨hcomplete, ?_⟩
    rw [List.map_cons, List.map_cons, hreplies, reply_turn style color hread hline.clean]

end Answers

/-! ## What a file is compiled to -/

/-- The joined lines start with the number of the first. -/
theorem head?_tokenize_joined {lines : List (List UInt8)} (hne : lines ≠ [])
    (h : ∀ line ∈ lines, Independent line) :
    (tokenize (List.intercalate [0x0A] lines)).head?.map (·.kind) = some .lineNo := by
  obtain ⟨line, lines, rfl⟩ := List.exists_cons_of_ne_nil hne
  have hnumbered := (h line List.mem_cons_self).numbered
  cases lines with
  | nil =>
    rw [List.intercalate_singleton]
    exact hnumbered
  | cons next lines =>
    obtain ⟨first, rest, finish, htokens, hkind, -⟩ := exists_body_of_numbered hnumbered
    rw [List.intercalate_cons_cons, List.append_assoc, List.singleton_append, tokenize_lineFeed,
      htokens, List.dropLast_concat]
    exact congrArg some hkind

section Files

variable {style : Style} (hstyle : style.standalone = false)

include hstyle

/-- Without a program around it, the C text of some statements is that of one after another. -/
theorem programToC_append (first second : List Statement) :
    programToC style (first ++ second) = programToC style first ++ programToC style second := by
  have hwrap (body : String) : style.wrap body = body := if_neg (Bool.eq_false_iff.1 hstyle)
  have hlist : Statement.listToC style (first ++ second) =
      Statement.listToC style first ++ Statement.listToC style second := by
    induction first with
    | nil => rfl
    | cons head tail ih =>
      rw [List.cons_append, Statement.listToC, Statement.listToC, ih, List.cons_append]
  simp only [programToC, hwrap]
  rw [hlist, CText.lines_append]

/-- A line and what follows it, if that starts with a line number, are compiled one after the
other. -/
theorem programToC_parse_lineFeed {line right : List UInt8} (hline : Independent line)
    (hright : (tokenize right).head?.map (·.kind) = some .lineNo) :
    (parse (line ++ 0x0A :: right)).isClean = (parse right).isClean ∧
      programToC style (parse (line ++ 0x0A :: right)).program =
        programToC style (parse line).program ++ programToC style (parse right).program := by
  obtain ⟨first, rest, finish, htokens, hkind, hbody⟩ := exists_body_of_numbered hright
  -- behind the line, the parse stands at the rest, with no array and no diagnostic
  obtain ⟨behind, hbehind, hfinish, harrays, hdiagnostics, hfinal, hprogram⟩ :=
    exists_behind htokens rfl hkind (.inr hline.clean)
  have hnone (name : String) : behind.isArray name = false :=
    (harrays name).trans (isArray_final_of_not_dim hline.clean hline.plain name)
  rw [List.isEmpty_iff.1 hline.clean, List.map_nil] at hdiagnostics
  obtain ⟨hprogram', hfinal'⟩ := parse_of_tokenize htokens
  obtain ⟨hstatements, hsteps⟩ := Grammar.steps_relocate (.down (1 + line.count 0x0A))
    (.start (first :: rest) finish []) behind hbody rfl hbehind hfinish hnone
  constructor
  · rw [Listing.isClean, Listing.isClean, Listing.diagnostics, Listing.diagnostics, hfinal, hsteps,
      hdiagnostics, hfinal', List.nil_append, List.isEmpty_map]
  · rw [hprogram, hstatements, programToC_append hstyle, programToC_relocate, hprogram']

/-- Lines that stand on their own are well-formed together, and compiled one after another. -/
theorem programToC_parse_joined {lines : List (List UInt8)} (hne : lines ≠ [])
    (h : ∀ line ∈ lines, Independent line) :
    (parse (List.intercalate [0x0A] lines)).isClean = true ∧
      programToC style (parse (List.intercalate [0x0A] lines)).program =
        String.join (lines.map fun line => programToC style (parse line).program) := by
  -- the first line does not depend on those behind it, and leaves no array declared for them
  induction lines with
  | nil => exact absurd rfl hne
  | cons line lines ih =>
    have hline := h line List.mem_cons_self
    cases lines with
    | nil =>
      rw [List.intercalate_singleton]
      exact ⟨hline.clean, by simp⟩
    | cons next lines =>
      have hlines := (List.forall_mem_cons.1 h).2
      obtain ⟨hclean, htext⟩ := ih (List.cons_ne_nil _ _) hlines
      obtain ⟨hsame, happend⟩ := programToC_parse_lineFeed hstyle hline
        (head?_tokenize_joined (List.cons_ne_nil next lines) hlines)
      rw [List.intercalate_cons_cons, List.append_assoc, List.singleton_append]
      refine ⟨hsame.trans hclean, ?_⟩
      rw [happend, htext]
      exact String.join_cons.symm

end Files

/-- The answers of a session are the C text of the file. -/
theorem joined_answers_eq_output (style : Style) (color : Bool) (lines : List (List UInt8))
    (ending : List UInt8) (hstyle : style.standalone = false) (hne : lines ≠ [])
    (h : ∀ line ∈ lines, Independent line) (hending : ending = [] ∨ ending = [0x0A]) :
    let listing := List.intercalate [0x0A] lines
    let transcript := run style color (listing ++ ending)
    transcript.complete = true ∧
      transcript.turns.length = lines.length ∧
      transcript.text none =
        banner ++ String.join (transcript.turns.map fun turn => prompt ++ turn.reply) ++ prompt
          ++ "\n" ∧
      String.join (transcript.turns.map (·.reply)) = (compile style listing).output := by
  intro listing transcript
  -- each line is answered with its program, and the lines are those of the input
  obtain ⟨hcomplete, hreplies⟩ : transcript.complete = true ∧
      transcript.turns.map (·.reply) =
        lines.map fun line => programToC style (parse line).program :=
    overLines_of_forall₂ style color (forall₂_lines hending hne h) h
  refine ⟨hcomplete, ?_, ?_, ?_⟩
  · have hlength := congrArg List.length hreplies
    rwa [List.length_map, List.length_map] at hlength
  · rw [Transcript.text, if_pos hcomplete]
    rfl
  · have houtput : (compile style listing).output = programToC style (parse listing).program :=
      Compilation.output_ofDelivery style _
    rw [houtput, (programToC_parse_joined hstyle hne h).2]
    exact congrArg String.join hreplies

/-- The theorem at lines with a choice, a loop, a remark and data at their end, some of which end in
a carriage return. -/
theorem joined_answers_eq_output_mixed :
    let lines := ["10 IF A THEN B = 1 ELSE 40", "20 FOR I = 1 TO 3: NEXT I\r", "30 CLS: REM DONE\r",
      "40 DATA 1, 2"].map Utf8.encode
    let listing := List.intercalate [0x0A] lines
    String.join ((run .standard true (listing ++ [0x0A])).turns.map (·.reply)) =
      (compile .standard listing).output :=
  (joined_answers_eq_output .standard true
    (["10 IF A THEN B = 1 ELSE 40", "20 FOR I = 1 TO 3: NEXT I\r", "30 CLS: REM DONE\r",
      "40 DATA 1, 2"].map Utf8.encode)
    [0x0A] rfl (List.cons_ne_nil _ _) (by decide +kernel) (.inr rfl)).2.2.2

end Session

end LineBasic
