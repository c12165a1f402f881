import LineBasic.Lowering.Text
import LineBasic.Proofs.Grammar.Faults
import LineBasic.Proofs.Streaming
import LineBasic.Proofs.Token.Pieces

/-!
# Reports as comments

The report of what is wrong with a listing is a block of C comments, whatever bytes the listing
holds (`splitOn_report`).

All that a message takes over from a listing is the literal of a token. No token reaches across the
end of its line, and decoding its bytes puts no line break in, so a message stands on one line. It
may end in a backslash, with which C takes the next line for more of the comment. The next line is
a comment itself or the empty line at the end of the report, and what stands behind the report is
read as if it stood alone.
-/

namespace LineBasic

/-! ## Texts without line breaks -/

/-- Whether a character ends a line. -/
def endsLine (c : Char) : Bool := c == '\n' || c == '\r'

/-- The text has neither a line feed nor a carriage return in it. -/
def Unbroken (text : String) : Prop := ∀ c ∈ text.toList, endsLine c = false

instance (text : String) : Decidable (Unbroken text) :=
  -- by the characters of the text, not by all characters
  List.decidableBAll (endsLine · = false) text.toList

theorem endsLine_eq_false {c : Char} (hfeed : c ≠ '\n') (hreturn : c ≠ '\r') :
    endsLine c = false := by
  rw [endsLine, Bool.or_eq_false_iff]
  exact ⟨beq_eq_false_iff_ne.2 hfeed, beq_eq_false_iff_ne.2 hreturn⟩

/-- Text is unbroken if neither of the two line ends is in it. -/
theorem unbroken_iff {text : String} :
    Unbroken text ↔ '\n' ∉ text.toList ∧ '\r' ∉ text.toList := by
  constructor
  · intro h
    exact ⟨fun hmem => absurd (h _ hmem) (by decide), fun hmem => absurd (h _ hmem) (by decide)⟩
  · rintro ⟨hfeed, hreturn⟩ c hc
    exact endsLine_eq_false (fun heq => hfeed (heq ▸ hc)) fun heq => hreturn (heq ▸ hc)

@[simp]
theorem unbroken_append {left right : String} :
    Unbroken (left ++ right) ↔ Unbroken left ∧ Unbroken right := by
  simp [Unbroken, or_imp, forall_and]

/-- No digit ends a line, to whatever base. -/
theorem endsLine_of_mem_toDigits {base n : Nat} (hbase : 1 < base) {c : Char}
    (h : c ∈ base.toDigits n) : endsLine c = false := by
  have hdigit (digit : Nat) : endsLine digit.digitChar = false :=
    endsLine_eq_false (Nat.digitChar_ne _ (by decide)) (Nat.digitChar_ne _ (by decide))
  induction n using Nat.strongRecOn with
  | ind n ih =>
    rw [Nat.toDigits_eq_if hbase] at h
    split at h
    · exact List.mem_singleton.1 h ▸ hdigit n
    · rcases List.mem_append.1 h with h | h
      · exact ih _ (Nat.div_lt_self (by omega) hbase) h
      · exact List.mem_singleton.1 h ▸ hdigit _

theorem unbroken_toString (n : Nat) : Unbroken (toString n) := by
  rw [Unbroken, Nat.toString_eq_repr, Nat.toList_repr]
  exact fun c hc => endsLine_of_mem_toDigits (by decide) hc

namespace Quoted

/-- An encoded character has no line end left, since both are written as escapes. -/
theorem endsLine_of_mem_encodeChar (c : Char) : ∀ d ∈ encodeChar c, endsLine d = false := by
  unfold encodeChar
  split
  case h_7 hfeed hreturn _ =>
    -- a character that is left as it is, or its code point
    split
    · exact List.forall_mem_singleton.2 (endsLine_eq_false hfeed hreturn)
    · rw [List.forall_mem_append, List.forall_mem_append]
      exact ⟨⟨by simp [endsLine], fun _ => endsLine_of_mem_toDigits (by decide)⟩,
        by simp [endsLine]⟩
  all_goals simp [endsLine]

/-- A text between quotes stands on one line, whatever characters it has. -/
theorem unbroken_encode (text : String) : Unbroken (encode text) := by
  rw [Unbroken, encode, String.toList_ofList, List.forall_mem_append, List.forall_mem_cons,
    List.forall_mem_singleton]
  refine ⟨⟨by decide, fun d hd => ?_⟩, by decide⟩
  obtain ⟨c, -, hd⟩ := List.mem_flatMap.1 hd
  exact endsLine_of_mem_encodeChar c d hd

end Quoted

/-! ## Literals of tokens -/

/-- The character of a byte is a line break if the byte is. -/
theorem endsLine_ofUInt8 (b : UInt8) : endsLine (Char.ofUInt8 b) = Byte.isLineBreak b := by
  have hchar (code : UInt8) : Char.ofUInt8 b = Char.ofUInt8 code ↔ b = code :=
    ⟨Utf8.ofUInt8_inj, congrArg Char.ofUInt8⟩
  rw [Bool.eq_iff_iff, endsLine, Byte.isLineBreak, Bool.or_eq_true, Bool.or_eq_true, beq_iff_eq,
    beq_iff_eq, beq_iff_eq, beq_iff_eq]
  exact or_congr (hchar 0x0A) (hchar 0x0D)

/-- Decoding puts no line break in. -/
theorem Utf8.unbroken_decodeLossy {bytes : List UInt8}
    (h : ∀ b ∈ bytes, Byte.isLineBreak b = false) : Unbroken (decodeLossy bytes) := by
  intro c hc
  by_contra hends
  -- a line break is in ASCII, so it would be one of the bytes
  have hascii : 0 < c.val.toNat ∧ c.val.toNat < 0x80 := by
    rw [Bool.not_eq_false, endsLine, Bool.or_eq_true, beq_iff_eq, beq_iff_eq] at hends
    rcases hends with rfl | rfl <;> decide
  obtain ⟨b, hb, rfl⟩ := exists_byte_of_mem_decodeLossy hc hascii.1 hascii.2
  exact hends (endsLine_ofUInt8 b ▸ h b hb)

/-- The literal of a token stands on one line. -/
theorem Spells.unbroken {kind : Token.Kind} {literal : String} {source : List UInt8}
    (h : Spells kind literal source) : Unbroken literal := by
  have hsource := h.isLineBreak_eq_false
  -- all but a single byte are decoded from bytes of the token
  have hpart {text : List UInt8} (hsubset : text ⊆ source) : Unbroken (Utf8.decodeLossy text) :=
    Utf8.unbroken_decodeLossy fun b hb => hsource b (hsubset hb)
  cases h with
  | str => exact hpart (by simp)
  | cut => exact unbroken_append.2 ⟨by decide, hpart (by simp)⟩
  | remark | payload => exact hpart (by simp)
  | @byte b =>
    intro c hc
    rw [String.toList_singleton, List.mem_singleton] at hc
    rw [hc, endsLine_ofUInt8, hsource b List.mem_cons_self]
  | plain => exact hpart (List.Subset.refl _)

/-- No literal spans lines, so none can break a comment. -/
theorem unbroken_of_mem_tokenize {bytes : List UInt8} {token : Token}
    (h : token ∈ tokenize bytes) : Unbroken token.literal := by
  obtain ⟨pieces, _, -, -, htokens, -⟩ :=
    (Stream.ofDelivery (.ofBytes bytes)).exists_pieces_unread
  rw [tokenize, htokens] at h
  rcases List.mem_append.1 h with h | h
  · obtain ⟨piece, -, rfl⟩ := List.mem_map.1 h
    exact piece.spells.unbroken
  · rw [List.mem_singleton.1 h]
    exact List.forall_mem_nil _

/-! ## Messages -/

/-- The name of a kind of token stays on one line. -/
theorem Token.Kind.unbroken_text (kind : Token.Kind) : Unbroken kind.text := by
  cases kind with
  | sym symbol => cases symbol <;> decide
  | word keyword => cases keyword <;> decide
  | _ => decide

theorem Location.unbroken_text (loc : Location) : Unbroken loc.text := by
  simp only [text, unbroken_append, unbroken_toString]
  decide

/-- A message stands on one line if what it quotes does. -/
theorem Cause.unbroken_message {cause : Cause}
    (h : ∀ literal ∈ cause.quoted?, Unbroken literal) : Unbroken cause.message := by
  unfold message
  cases cause with
  | unexpected expected found | noJump found | noOperand found =>
    simp only [unbroken_append, Token.Kind.unbroken_text]
    decide
  | badInteger literal =>
    simp only [unbroken_append, Quoted.unbroken_encode]
    decide
  | notCallable => decide
  | badStatement literal | badToken literal | illegalToken literal =>
    exact unbroken_append.2 ⟨by decide, h literal rfl⟩
  | tooDeep limit =>
    simp only [unbroken_append, unbroken_toString]
    decide

/-- What is quoted in a listing is the literal of one of its tokens. -/
theorem quotesFrom_of_mem_diagnostics {bytes : List UInt8} {d : Diagnostic}
    (h : d ∈ (parse bytes).diagnostics) : d.cause.QuotesFrom (tokenize bytes) := by
  obtain ⟨body, finish, htokens, -, -⟩ := tokenize_eq_body_append bytes
  have hstart : (Cursor.start body finish []).Fresh (tokenize bytes) := by
    have hwindow : (Cursor.start body finish []).window = tokenize bytes := htokens.symm
    exact ⟨hwindow ▸ List.Subset.refl _, hwindow ▸ Stream.tokens_pairwise_before _, .nil,
      List.forall_mem_nil _⟩
  have hfinal := (Grammar.steps_stepsTo _).reports hstart
  rw [Listing.diagnostics, (parse_of_tokenize htokens).2] at h
  exact (hfinal.placed d h).2.2

/-! ## Lines -/

namespace CText

/-- Each line ends with a line feed of its own. -/
theorem toList_lines_cons (text : String) (texts : List String) :
    (lines (text :: texts)).toList = text.toList ++ '\n' :: (lines texts).toList := by
  rw [lines, List.map_cons, String.join_cons, ← lines]
  simp

/-- Lines are cut apart at the line feeds. Nothing stands behind the last one. -/
theorem splitOn_lines {texts : List String} (h : ∀ text ∈ texts, '\n' ∉ text.toList) :
    (lines texts).toList.splitOn '\n' = texts.map String.toList ++ [[]] := by
  induction texts with
  | nil => rfl
  | cons text texts ih =>
    rw [List.forall_mem_cons] at h
    rw [toList_lines_cons, List.splitOn_append_cons_self_of_not_mem h.1, ih h.2]
    rfl

/-- There are as many line feeds as lines if no line has one in it. -/
theorem count_lines {texts : List String} (h : ∀ text ∈ texts, '\n' ∉ text.toList) :
    (lines texts).toList.count '\n' = texts.length := by
  induction texts with
  | nil => rfl
  | cons text texts ih =>
    rw [List.forall_mem_cons] at h
    rw [toList_lines_cons, List.count_append, List.count_eq_zero.2 h.1, List.count_cons_self,
      ih h.2, Nat.zero_add, List.length_cons]

/-- A character of the lines is one of a line, or the line feed behind it. -/
theorem mem_lines {texts : List String} {c : Char} (h : c ∈ (lines texts).toList) :
    c = '\n' ∨ ∃ text ∈ texts, c ∈ text.toList := by
  induction texts with
  | nil => cases h
  | cons text texts ih =>
    rw [toList_lines_cons, List.mem_append, List.mem_cons] at h
    rcases h with h | h | h
    · exact .inr ⟨text, List.mem_cons_self, h⟩
    · exact .inl h
    · exact (ih h).imp_right fun ⟨other, hother, hc⟩ => ⟨other, List.mem_cons_of_mem _ hother, hc⟩

/-! ## Comments -/

/-- What is left of C text without its line comments, from inside a comment on or from outside of
one. A comment ends at the first line feed with no backslash in front of it. Quotes and other
comments are read as any text. -/
def uncommented : (inside : Bool) → List Char → List Char
  | _, [] => []
  | true, '\\' :: '\n' :: rest => uncommented true rest
  | true, '\n' :: rest => '\n' :: uncommented false rest
  | true, _ :: rest => uncommented true rest
  | false, '/' :: '/' :: rest => uncommented true rest
  | false, c :: rest => c :: uncommented false rest

/-- Inside a comment, a character is left out unless it ends the line or carries it on. -/
theorem uncommented_cons {c : Char} {rest : List Char} (hfeed : c ≠ '\n')
    (hcarried : ¬(c = '\\' ∧ rest.head? = some '\n')) :
    uncommented true (c :: rest) = uncommented true rest := by
  rw [uncommented]
  · rintro rest rfl rfl
    exact hcarried ⟨rfl, rfl⟩
  · exact hfeed

/-- A line inside a comment is left out, and the line behind it may be inside the comment, too. -/
theorem uncommented_line {line : List Char} (h : '\n' ∉ line) (rest : List Char) :
    uncommented true (line ++ '\n' :: rest) = uncommented true rest ∨
      uncommented true (line ++ '\n' :: rest) = '\n' :: uncommented false rest := by
  induction line with
  | nil => exact .inr rfl
  | cons c line ih =>
    rw [List.mem_cons, not_or] at h
    -- a backslash that ends the line carries the comment on to the next one
    by_cases hcarried : c = '\\' ∧ line = []
    · obtain ⟨rfl, rfl⟩ := hcarried
      exact .inl rfl
    · rw [List.cons_append, uncommented_cons (Ne.symm h.1)]
      · exact ih h.2
      · rintro ⟨rfl, hhead⟩
        cases line with
        | nil => exact hcarried ⟨rfl, rfl⟩
        | cons d line => exact h.2 (by simp_all)

/-- Nothing but line feeds is left of comments and an empty line behind them, and what stands behind
the empty line is outside of them. -/
theorem exists_uncommented_lines {comments : List String}
    (h : ∀ comment ∈ comments, ['/', '/'] <+: comment.toList ∧ '\n' ∉ comment.toList)
    (inside : Bool) (code : List Char) :
    ∃ count, uncommented inside ((lines comments).toList ++ '\n' :: code) =
      List.replicate count '\n' ++ uncommented false code := by
  induction comments generalizing inside with
  | nil => exact ⟨1, by cases inside <;> rfl⟩
  | cons comment comments ih =>
    rw [List.forall_mem_cons] at h
    obtain ⟨⟨⟨text, hslashes⟩, hline⟩, hcomments⟩ := h
    -- the rest of the comment is inside of it, as is all of it if the line before is carried on
    obtain ⟨line, hinside, hfeed⟩ : ∃ line : List Char,
        uncommented inside ((lines (comment :: comments)).toList ++ '\n' :: code) =
          uncommented true (line ++ '\n' :: ((lines comments).toList ++ '\n' :: code)) ∧
        '\n' ∉ line := by
      rw [toList_lines_cons, List.append_assoc, List.cons_append]
      cases inside with
      | true => exact ⟨comment.toList, rfl, hline⟩
      | false =>
        rw [← hslashes] at hline ⊢
        exact ⟨text, rfl, fun hmem => hline (List.mem_append_right _ hmem)⟩
    rw [hinside]
    rcases uncommented_line hfeed ((lines comments).toList ++ '\n' :: code) with hrest | hrest
    · rw [hrest]
      exact ih hcomments true
    · obtain ⟨count, hcount⟩ := ih hcomments false
      exact ⟨count + 1, by rw [hrest, hcount]; rfl⟩

end CText

/-! ## Reports -/

namespace Diagnostic

/-- The first line of every report. -/
def heading : String := "// ERR: ========== parser =========="

/-- The line of a diagnostic, without the line feed behind it. -/
def comment (diagnostic : Diagnostic) : String :=
  "//  line " ++ diagnostic.loc.text ++ ": " ++ diagnostic.message

/-- The lines of a report that are comments. -/
def comments (diagnostics : List Diagnostic) : List String :=
  heading :: diagnostics.map comment

/-- A report is its comments and an empty line. -/
theorem report_eq_lines (diagnostics : List Diagnostic) :
    report diagnostics = CText.lines (comments diagnostics ++ [""]) := by
  have hheading : "// ERR: ========== parser ==========\n" = heading ++ "\n" := by decide +kernel
  have hlines : diagnostics.map line = (diagnostics.map comment).map (· ++ "\n") := by
    rw [List.map_map]
    rfl
  unfold report CText.lines comments
  rw [hheading, hlines, List.cons_append, List.map_cons, List.map_append, String.join_cons,
    String.join_append, String.append_assoc]
  rfl

/-- Each comment starts with two slashes. -/
theorem slashes_of_mem_comments {diagnostics : List Diagnostic} {comment : String}
    (h : comment ∈ comments diagnostics) : ['/', '/'] <+: comment.toList := by
  rw [comments, List.mem_cons, List.mem_map] at h
  rcases h with rfl | ⟨d, -, rfl⟩
  · decide
  · unfold Diagnostic.comment
    rw [String.append_assoc, String.append_assoc, String.toList_append]
    exact (by decide : ['/', '/'] <+: "//  line ".toList).trans (List.prefix_append _ _)

end Diagnostic

open CText Diagnostic

/-- The lines of a report have no line breaks in them. -/
theorem unbroken_of_mem_comments {bytes : List UInt8} {comment : String}
    (h : comment ∈ comments (parse bytes).diagnostics) : Unbroken comment := by
  rw [comments, List.mem_cons, List.mem_map] at h
  rcases h with rfl | ⟨d, hd, rfl⟩
  · decide
  · have hmessage : Unbroken d.message := by
      refine Cause.unbroken_message fun literal hliteral => ?_
      obtain ⟨token, htoken, rfl⟩ := quotesFrom_of_mem_diagnostics hd literal hliteral
      exact unbroken_of_mem_tokenize htoken
    unfold Diagnostic.comment
    simp only [unbroken_append, Location.unbroken_text, hmessage]
    decide

/-- Nothing but line feeds is left of a report, and C text behind it is read as it stands. -/
theorem exists_uncommented_report (bytes : List UInt8) (code : List Char) :
    ∃ count, uncommented false ((report (parse bytes).diagnostics).toList ++ code) =
      List.replicate count '\n' ++ uncommented false code := by
  -- the empty line is the end of a comment that a backslash carries on
  have htext : (report (parse bytes).diagnostics).toList ++ code =
      (lines (comments (parse bytes).diagnostics)).toList ++ '\n' :: code := by
    rw [report_eq_lines, lines_append, String.toList_append, List.append_assoc]
    rfl
  rw [htext]
  refine exists_uncommented_lines (fun comment h => ⟨slashes_of_mem_comments h, ?_⟩) false code
  exact (unbroken_iff.1 (unbroken_of_mem_comments h)).1

/-- The report of a listing is a block of comments. Its line feeds cut it into the heading, a
comment for each diagnostic, in their order, and an empty line, and no carriage return is in it. So
nothing but line feeds is left of it without the comments, and C text behind it is read as it
stands. -/
theorem splitOn_report (bytes : List UInt8) :
    let diagnostics := (parse bytes).diagnostics
    let text := (report diagnostics).toList
    text.splitOn '\n' = (comments diagnostics).map String.toList ++ [[], []] ∧
      (∀ comment ∈ comments diagnostics, ['/', '/'] <+: comment.toList) ∧
      text.count '\n' = diagnostics.length + 2 ∧ '\r' ∉ text ∧
      ∀ code, ∃ count,
        uncommented false (text ++ code) = List.replicate count '\n' ++ uncommented false code := by
  intro diagnostics text
  -- the empty line that closes the report is as unbroken as the comments
  have hunbroken : ∀ line ∈ comments diagnostics ++ [""], Unbroken line :=
    List.forall_mem_append.2
      ⟨fun _ => unbroken_of_mem_comments, List.forall_mem_singleton.2 (by decide)⟩
  have hfeeds (line) (hline : line ∈ comments diagnostics ++ [""]) : '\n' ∉ line.toList :=
    (unbroken_iff.1 (hunbroken line hline)).1
  have htext : text = (lines (comments diagnostics ++ [""])).toList :=
    congrArg String.toList (report_eq_lines diagnostics)
  refine ⟨?_, fun _ => slashes_of_mem_comments, ?_, ?_, exists_uncommented_report bytes⟩
  · rw [htext, splitOn_lines hfeeds, List.map_append, List.append_assoc]
    rfl
  · rw [htext, count_lines hfeeds]
    simp [comments]
  · rw [htext]
    intro hmem
    rcases mem_lines hmem with h | ⟨line, hline, h⟩
    · exact absurd h (by decide)
    · exact (unbroken_iff.1 (hunbroken line hline)).2 h

/-- A string that is cut short behind a backslash. -/
example :
    report (parse (Utf8.encode "10 \"a\\\n20 \"b\\")).diagnostics =
      lines ["// ERR: ========== parser ==========", "//  line 1:4: illegal token: \"a\\",
        "//  line 2:4: illegal token: \"b\\", ""] := by
  decide +kernel

end LineBasic
