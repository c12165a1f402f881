import LineBasic.Proofs.Grammar.Contents
import LineBasic.Proofs.Spelling.Program.Text

/-!
# Scanning written programs

The scanner finds the tokens of a written program, one by one and with their literals
(`tokenizesTo_listing`), if a colon directly behind a payload ends it. A statement is scanned
as its tokens before bytes that end it: those that end a word, or those that end a payload
(`Lead.EndedBy`).
-/

namespace LineBasic

/-! ## Numerals, data and line numbers -/

namespace Lexeme

variable {rest : List UInt8}

/-- Digits with a point among or after them are found as one number. -/
theorem numberBytes_of_point {whole fraction : List UInt8}
    (hwhole : ∀ b ∈ whole, Byte.isDigit b = true)
    (hfraction : ∀ b ∈ fraction, Byte.isDigit b = true)
    (hrest : ∀ b ∈ rest.head?, Byte.isDigit b = false) :
    numberBytes (whole ++ 0x2E :: (fraction ++ rest)) = whole ++ 0x2E :: fraction := by
  have hpoint : ∀ b ∈ (0x2E :: (fraction ++ rest)).head?, Byte.isDigit b = false := by
    intro b hb
    cases hb
    decide
  rw [numberBytes, takeWhile_append_exact hwhole hpoint, dropWhile_append_exact hwhole hpoint]
  exact congrArg (whole ++ 0x2E :: ·) (takeWhile_append_exact hfraction hrest)

/-- A number is scanned as what it is, with or without a point. -/
theorem first?_ofNumeral {text : String} (h : isNumeral text = true) (hrest : Delimits rest) :
    first? false ((ofDigits text).source ++ rest) = some (ofDigits text) := by
  rcases isDigits_or_exists_of_isNumeral h with hdigits |
    ⟨whole, fraction, htext, hne, hwhole, hfraction⟩
  · exact first?_ofDigits hdigits hrest
  · -- the bytes are two runs of digits with the point between them
    have hbytes : Utf8.encode text = whole.flatMap String.utf8EncodeChar ++
        0x2E :: fraction.flatMap String.utf8EncodeChar := by
      rw [Utf8.encode, htext, List.flatMap_append, List.flatMap_cons]
      rfl
    have hnumber : numberBytes (Utf8.encode text ++ rest) = Utf8.encode text := by
      rw [hbytes, List.append_assoc, List.cons_append]
      exact numberBytes_of_point (isDigit_of_mem_flatMap hwhole)
        (isDigit_of_mem_flatMap hfraction) (hrest.head (by decide))
    obtain ⟨c, chars, rfl⟩ := List.exists_cons_of_ne_nil hne
    have hstart := exists_encode_of_isDigit htext (hwhole c List.mem_cons_self)
    rw [ofDigits, first?_of_isDigit hstart, number, hnumber, Utf8.decodeLossy_encode]
    rfl

/-- The bytes end a payload that stands before them. -/
def EndsPayload (rest : List UInt8) : Prop :=
  ∀ b ∈ rest.head?, b = 0x3A ∨ b = 0x0A

/-- No blank stands at the front of a payload, whatever ends it. -/
theorem not_isBlank_of_isPayload {payload : String} (h : isPayload payload = true)
    (hrest : EndsPayload rest) :
    ∀ b ∈ (Utf8.encode payload ++ rest).head?, Byte.isBlank b = false := by
  rw [isPayload, Bool.and_eq_true] at h
  cases hpayload : payload.toList with
  | nil =>
    intro b hb
    rw [Utf8.encode, hpayload] at hb
    -- of an empty payload, the first byte is that behind it
    rcases hrest b hb with rfl | rfl <;> decide
  | cons c chars =>
    intro b hb
    have hc : c ≠ ' ' ∧ c ≠ '\t' := by simpa [hpayload] using h.1
    -- the first byte is one of the first character, which is neither of the blanks
    have hmem : b ∈ String.utf8EncodeChar c := by
      rw [Utf8.encode, hpayload, List.flatMap_cons, List.append_assoc] at hb
      obtain ⟨first, bytes, hbytes⟩ := List.exists_cons_of_ne_nil
        (List.length_pos_iff.1 (String.length_utf8EncodeChar c ▸ Char.utf8Size_pos c))
      rw [hbytes] at hb ⊢
      cases hb
      exact List.mem_cons_self
    simp only [Byte.isBlank, Bool.or_eq_false_iff, beq_eq_false_iff_ne]
    exact ⟨byte_ne_of_mem_utf8EncodeChar hmem (by decide) hc.1,
      byte_ne_of_mem_utf8EncodeChar hmem (by decide) hc.2⟩

/-- The payload of a word stands behind one space, before bytes that end it. -/
theorem withPayload_encode {payload : String} (kind : Token.Kind) (opening : List UInt8)
    (h : isPayload payload = true) (hrest : EndsPayload rest) :
    withPayload kind opening ([0x20] ++ (Utf8.encode payload ++ rest)) =
      ⟨kind, payload, opening ++ 0x20 :: Utf8.encode payload⟩ := by
  have hspace : ∀ b ∈ [(0x20 : UInt8)], Byte.isBlank b = true := by simp [Byte.isBlank]
  have hblank := not_isBlank_of_isPayload h hrest
  rw [isPayload, Bool.and_eq_true, List.all_eq_true] at h
  have hall : ∀ b ∈ Utf8.encode payload, Byte.isPayload b = true :=
    forall_mem_flatMap_utf8EncodeChar fun c hc b hb =>
      not_isLineBreak_of_mem_utf8EncodeChar (by decide) (h.2 c hc) hb
  have hend : ∀ b ∈ rest.head?, Byte.isPayload b = false := by
    intro b hb
    rcases hrest b hb with rfl | rfl <;> decide
  -- the one space before the payload is dropped, and nothing else
  rw [withPayload, takeWhile_append_exact hspace hblank, dropWhile_append_exact hspace hblank,
    takeWhile_append_exact hall hend, Utf8.decodeLossy_encode, List.append_assoc]
  rfl

/-- A payload is scanned up to the colon or the line break that ends it. -/
theorem first?_ofData {payload : String} (h : isPayload payload = true)
    (hrest : EndsPayload rest) :
    first? false ((ofData payload).source ++ rest) = some (ofData payload) := by
  have hsource : (ofData payload).source ++ rest =
      Utf8.encode "DATA" ++ ([0x20] ++ (Utf8.encode payload ++ rest)) := by
    simp [ofData]
  have hdelimits : Delimits ([0x20] ++ (Utf8.encode payload ++ rest)) := .cons (by decide)
  have hkind : Token.Kind.ofWord "DATA" = .word .data := by decide
  -- the word that the payload belongs to
  obtain ⟨hword, hstart⟩ :=
    wordBytes_encode (show isWordText "DATA".toList = true by decide) hdelimits
  rw [hsource, first?_of_isLetter hstart, word, hword, Utf8.decodeLossy_encode, hkind]
  dsimp only
  rw [List.drop_left, withPayload_encode _ _ h hrest]
  rfl

end Lexeme

open Lexeme (EndsPayload)

/-- A line break and a number are scanned as a line number. -/
theorem Scans.line {digits : String} {rest : List UInt8} (h : isDigits digits = true)
    (hrest : Delimits rest) :
    Scans ((Lexeme.ofLine digits).source ++ rest) [(.lineNo, digits)] rest := by
  intro loc
  -- the line break is skipped, and what follows it opens a line
  have hbreak : (⟨(Lexeme.ofLine digits).source ++ rest, loc, false, none⟩ : Stream).tokens =
      (⟨(Lexeme.ofLineNumber digits).source ++ rest, loc.next 0x0A, true, none⟩ : Stream).tokens :=
    Stream.tokens_congr rfl
  rw [hbreak]
  exact ⟨_, _, Stream.tokens_of_first? _ (Lexeme.first?_ofLineNumber h hrest)
    Token.Kind.noConfusion, rfl⟩

/-! ## Pieces in a row -/

namespace Mark

/-- The pieces are scanned as what they are, before the rest. -/
def ScannedBefore (rest : List UInt8) (marks : List Mark) : Prop :=
  Scans (text marks ++ rest) (faces marks) rest

namespace ScannedBefore

variable {rest : List UInt8} {marks : List Mark}

theorem nil : ScannedBefore rest [] := Scans.refl rest

/-- Two stretches of marks are scanned, the first one in front of the text of the second. -/
theorem append {left right : List Mark} (hleft : ScannedBefore (text right ++ rest) left)
    (hright : ScannedBefore rest right) : ScannedBefore rest (left ++ right) := by
  have hscan := Scans.trans hleft hright
  rwa [← List.append_assoc, ← text_append, ← faces_append] at hscan

theorem space (h : ScannedBefore rest marks) : ScannedBefore rest (.space :: marks) :=
  (Scans.space _).trans h

/-- A lexeme is scanned as one token if the text behind it does not go on with it. -/
theorem token {lexeme : Lexeme} (h : ScannedBefore rest marks)
    (hfirst : Lexeme.first? false (lexeme.source ++ (text marks ++ rest)) = some lexeme)
    (hkind : lexeme.kind ≠ .illegal) : ScannedBefore rest (.token lexeme :: marks) := by
  have hscan := (Scans.token hfirst hkind).trans h
  rwa [← List.append_assoc] at hscan

/-- No symbol but `<` depends on what stands behind it. -/
theorem symbol (symbol : Symbol) (hlt : symbol ≠ .lt) (h : ScannedBefore rest marks) :
    ScannedBefore rest (.symbol symbol :: marks) :=
  h.token (Lexeme.first?_ofSymbol fun heq => absurd heq hlt) Token.Kind.noConfusion

theorem name {name : String} (hname : isName name = true) (hrest : Delimits (text marks ++ rest))
    (h : ScannedBefore rest marks) : ScannedBefore rest (.token (.ofName name) :: marks) :=
  h.token (Lexeme.first?_ofName false hname hrest) Token.Kind.noConfusion

/-- A keyword has to be followed by something that ends a word. -/
theorem keyword (keyword : Keyword) (hdata : keyword ≠ .data) (hrem : keyword ≠ .rem)
    (hrest : Delimits (text marks ++ rest)) (h : ScannedBefore rest marks) :
    ScannedBefore rest (.keyword keyword :: marks) := by
  refine h.token (Lexeme.first?_ofKeyword ?_ ?_ hdata hrem hrest) Token.Kind.noConfusion
  · cases keyword <;> decide
  · cases keyword <;> decide

/-- A reserved word with a space behind it. -/
theorem word (keyword : Keyword) (hdata : keyword ≠ .data) (hrem : keyword ≠ .rem)
    (h : ScannedBefore rest marks) : ScannedBefore rest (.keyword keyword :: .space :: marks) :=
  .keyword keyword hdata hrem (.cons (by decide)) h.space

/-- The number of a line has to be followed by something that ends a number. -/
theorem line {digits : String} (hdigits : isDigits digits = true)
    (hrest : Delimits (text marks ++ rest)) (h : ScannedBefore rest marks) :
    ScannedBefore rest (.token (.ofLine digits) :: marks) := by
  have hscan := (Scans.line hdigits hrest).trans h
  rwa [← List.append_assoc] at hscan

end ScannedBefore

/-- Items with commas between them are scanned if each item is. -/
theorem commas_scanned {items : List (List Mark)} (h : ∀ item ∈ items, Scanned item) :
    Scanned (commas items) := by
  induction items with
  | nil => exact fun _ _ => ScannedBefore.nil
  | cons head tail ih =>
    cases tail with
    | nil => exact h head List.mem_cons_self
    | cons next tail =>
      intro rest hrest
      exact ScannedBefore.append (h head List.mem_cons_self _ (.cons (by decide)))
        (.symbol .comma (by decide)
          (.space (ih (fun item hitem => h item (List.mem_cons_of_mem _ hitem)) rest hrest)))

end Mark

open Mark (ScannedBefore)

/-- A target that can be spelled is scanned, in front of anything that ends a word. -/
theorem JumpTarget.marks_scanned {target : JumpTarget} (h : target.isSpellable = true) :
    Mark.Scanned target.marks := by
  intro rest hrest
  unfold JumpTarget.marks
  split
  next hnumeral =>
    exact ScannedBefore.nil.token (Lexeme.first?_ofNumeral hnumeral hrest) Token.Kind.noConfusion
  next hnumeral =>
    rw [isSpellable, Bool.or_eq_true, or_iff_right hnumeral] at h
    exact ScannedBefore.symbol .asterisk (by decide) (.name h hrest .nil)

/-- A declaration that can be spelled is scanned, since a parenthesis ends it. -/
theorem ArrayDecl.marks_scanned {array : ArrayDecl} (h : array.isSpellable = true) :
    Mark.Scanned array.marks := by
  simp only [isSpellable, Bool.and_eq_true, List.all_eq_true] at h
  obtain ⟨⟨hname, -⟩, hsizes⟩ := h
  intro rest _
  refine ScannedBefore.name hname (.cons (by decide)) (.symbol .lparen (by decide) (.append ?_
    (.symbol .rparen (by decide) .nil)))
  -- a comma or the closing parenthesis ends each size
  refine Mark.commas_scanned ?_ _ (.cons (by decide))
  intro item hitem rest hrest
  obtain ⟨size, hsize, rfl⟩ := List.mem_map.1 hitem
  have hdigits : isDigits size.literal = true := by
    have hspellable := hsizes size hsize
    simp only [IntLit.isSpellable, Bool.and_eq_true] at hspellable
    exact hspellable.1.1
  exact ScannedBefore.nil.token (Lexeme.first?_ofDigits hdigits hrest) Token.Kind.noConfusion

/-! ## Statements -/

/-- The bytes end what stands before a statement. -/
def Lead.EndedBy (lead : Lead) (rest : List UInt8) : Prop :=
  match lead with
  | start => True
  | data => EndsPayload rest
  | word => Delimits rest
  | statement => Delimits rest

/-- A colon ends any statement, whatever comes next in its line. -/
theorem Lead.endedBy_marks (lead : Lead) (rest : List UInt8) :
    lead.EndedBy (Mark.text (lead.marks Mark.colon) ++ rest) := by
  cases lead with
  | start => trivial
  | data =>
    intro b hb
    cases hb
    exact .inl rfl
  | _ => exact Delimits.cons (by decide)

/-- A line break ends any statement. -/
theorem Lead.endedBy_break (lead : Lead) (rest : List UInt8) : lead.EndedBy (0x0A :: rest) := by
  cases lead with
  | start => trivial
  | data =>
    intro b hb
    cases hb
    exact .inr rfl
  | _ => exact Delimits.cons (by decide)

/-- What stands between two statements is scanned in front of anything. -/
theorem Lead.marks_scannedBefore (lead : Lead) (rest : List UInt8) :
    ScannedBefore rest (lead.marks Mark.colon) := by
  have hcolon : ScannedBefore rest Mark.colon := .symbol .colon (by decide) (.space .nil)
  cases lead with
  | start => exact .nil
  | word => exact .space .nil
  | data => exact hcolon
  | statement => exact .space hcolon

namespace Statement

variable {gap : Nat}

@[simp]
theorem listLead_nil (lead : Lead) : listLead lead [] = lead := rfl

/-- The last statement of a list decides what may come after it. -/
theorem listLead_cons (lead : Lead) (head : Statement) (tail : List Statement) :
    listLead lead (head :: tail) = listLead head.lead tail := by
  unfold listLead
  cases tail with
  | nil => rfl
  | cons next tail => rw [List.getLast?_cons_cons, List.getLast?_cons]; rfl

/-- What is written for some statements ends what stands before them. -/
theorem endedBy_listMarks (lead : Lead) (statements : List Statement) {rest : List UInt8}
    (h : (listLead lead statements).EndedBy rest) :
    lead.EndedBy (Mark.text (listMarks gap Mark.colon lead statements) ++ rest) := by
  cases statements with
  | nil => exact h
  | cons head tail =>
    rw [listMarks, Mark.text_append, List.append_assoc]
    split
    next hline =>
      cases head with
      | lineNumber name data loc => cases data <;> exact lead.endedBy_break _
      | _ => cases hline
    next => exact lead.endedBy_marks _

/-- The statement is scanned as its tokens before bytes that end it. -/
def IsScanned (gap : Nat) (statement : Statement) : Prop :=
  ∀ rest, statement.lead.EndedBy rest → ScannedBefore rest (statement.marks gap Mark.colon)

/-- What is written for some statements is scanned as their tokens. -/
theorem listMarks_scannedBefore {statements : List Statement}
    (h : ∀ statement ∈ statements, statement.IsScanned gap) (lead : Lead) {rest : List UInt8}
    (hrest : (listLead lead statements).EndedBy rest) :
    ScannedBefore rest (listMarks gap Mark.colon lead statements) := by
  induction statements generalizing lead with
  | nil => exact .nil
  | cons head tail ih =>
    rw [listLead_cons] at hrest
    have htail := ih (fun statement hmem => h statement (List.mem_cons_of_mem _ hmem)) _ hrest
    -- what stands behind the first statement ends it, be that the rest or what follows the list
    have hends : head.lead.EndedBy (Mark.text (listMarks gap Mark.colon head.lead tail) ++ rest) :=
      endedBy_listMarks head.lead tail hrest
    rw [listMarks]
    refine .append ?_ (.append (h head List.mem_cons_self _ hends) htail)
    split
    · exact .nil
    · exact lead.marks_scannedBefore _

/-- A statement that opens no line may be followed by a colon. -/
theorem lead_of_not_isLine {statement : Statement} (h : statement.isLine = false) :
    statement.lead = .statement := by
  cases statement with
  | lineNumber => cases h
  | _ => rfl

/-- An arm ends like a word. -/
theorem endedBy_armLead {statements : List Statement} {rest : List UInt8} :
    (armLead statements).EndedBy rest ↔ Delimits rest := by
  rw [armLead]
  split <;> exact Iff.rfl

/-- No data stands directly in an arm, so what ends a word ends the arm. -/
theorem endedBy_listLead_armLead {open_ : Bool} {statements : List Statement} {rest : List UInt8}
    (h : listIsLaidOut false open_ statements = true) (hrest : Delimits rest) :
    (listLead (armLead statements) statements).EndedBy rest := by
  rw [listLead]
  cases hlast : statements.getLast? with
  | none => exact endedBy_armLead.2 hrest
  | some last =>
    have hline : last.isLine = false :=
      Bool.eq_false_iff.2 fun hline =>
        Bool.noConfusion ((isLaidOut_of_mem h last (List.mem_of_getLast? hlast)).2 hline)
    change last.lead.EndedBy rest
    rw [lead_of_not_isLine hline]
    exact hrest

end Statement

namespace Branch

variable {gap : Nat} {open_ : Bool} {declared : String → Bool} {arm : Branch} {rest : List UInt8}

/-- A word in front of an arm ends, even if nothing is in the arm. -/
theorem delimits_marks (hlaid : arm.isLaidOut open_ = true) (hrest : Delimits rest) :
    Delimits (Mark.text (arm.marks gap Mark.colon) ++ rest) := by
  cases arm with
  | goto target => exact .cons (by decide)
  | block statements =>
    exact Statement.endedBy_armLead.1 (Statement.endedBy_listMarks _ statements
      (Statement.endedBy_listLead_armLead hlaid hrest))

/-- The statements of an arm that is laid out are. -/
theorem isLaidOut_of_mem (h : arm.isLaidOut open_ = true) :
    ∀ statement ∈ arm.statements, statement.isLaidOut = true := by
  cases arm with
  | goto target => simp [Branch.statements]
  | block statements => exact fun statement hmem => (Statement.isLaidOut_of_mem h statement hmem).1

/-- The statements of an arm that can be spelled can be, with what is declared before them. -/
theorem exists_isSpellable_of_mem (h : arm.isSpellable declared = true) :
    ∀ statement ∈ arm.statements, ∃ declared, statement.isSpellable declared = true := by
  cases arm with
  | goto target => simp [Branch.statements]
  | block statements => exact Statement.exists_isSpellable_of_mem h

/-- An arm is scanned if its statements are. -/
theorem marks_scanned (h : ∀ statement ∈ arm.statements, statement.IsScanned gap)
    (hlaid : arm.isLaidOut open_ = true) (hspellable : arm.isSpellable declared = true) :
    Mark.Scanned (arm.marks gap Mark.colon) := by
  intro rest hrest
  cases arm with
  | goto target => exact ScannedBefore.space (target.marks_scanned hspellable rest hrest)
  | block statements =>
    exact Statement.listMarks_scannedBefore h _ (Statement.endedBy_listLead_armLead hlaid hrest)

end Branch

namespace Statement

variable {gap : Nat}

section Nested

variable {declared : String → Bool}

/-- An `IF` is scanned if the statements of its arms are. -/
theorem isScanned_cond {condition : Expr} {consequence : Branch} {alternative : Option Branch}
    {loc : Location}
    (hchildren : ∀ child ∈ (cond condition consequence alternative loc).children,
      ∀ {declared : String → Bool}, child.isLaidOut = true →
        child.isSpellable declared = true → child.IsScanned gap)
    (hlaid : (cond condition consequence alternative loc).isLaidOut = true)
    (h : (cond condition consequence alternative loc).isSpellable declared = true) :
    (cond condition consequence alternative loc).IsScanned gap := by
  intro rest hrest
  simp only [Statement.isLaidOut, Bool.and_eq_true] at hlaid
  simp only [Statement.isSpellable, Bool.and_eq_true] at h
  obtain ⟨hthen, helse⟩ := hlaid
  obtain ⟨⟨hcondition, hconsequence⟩, halternative⟩ := h
  have harm {open_ : Bool} {declared : String → Bool} {arm : Branch}
      (hsub : arm.statements ⊆ (cond condition consequence alternative loc).children)
      (hlaid : arm.isLaidOut open_ = true) (h : arm.isSpellable declared = true) :
      Mark.Scanned (arm.marks gap Mark.colon) := by
    refine Branch.marks_scanned (fun statement hmem => ?_) hlaid h
    obtain ⟨declared, hdeclared⟩ := Branch.exists_isSpellable_of_mem h statement hmem
    exact hchildren statement (hsub hmem) (Branch.isLaidOut_of_mem hlaid statement hmem) hdeclared
  -- the second arm, or none
  have helseScanned : ScannedBefore rest (Branch.elseMarks gap Mark.colon alternative) ∧
      Delimits (Mark.text (Branch.elseMarks gap Mark.colon alternative) ++ rest) := by
    cases alternative with
    | none => exact ⟨.nil, hrest⟩
    | some arm =>
      refine ⟨.space (.keyword .else_ (by decide) (by decide) ?_ ?_), .cons (by decide)⟩
      · exact Branch.delimits_marks helse hrest
      · exact harm (by simp [children]) helse halternative rest hrest
  obtain ⟨helseMarks, hdelimits⟩ := helseScanned
  have hthenMarks : ScannedBefore rest
      (consequence.marks gap Mark.colon ++ Branch.elseMarks gap Mark.colon alternative) :=
    .append (harm (by simp [children]) hthen hconsequence _ hdelimits) helseMarks
  refine .word .if_ (by decide) (by decide) (.append
    (Expr.marks_scanned gap condition hcondition _ (.cons (by decide)))
    (.space (.keyword .then_ (by decide) (by decide) ?_ hthenMarks)))
  rw [Mark.text_append, List.append_assoc]
  exact Branch.delimits_marks hthen hdelimits

/-- A loop is scanned if the statements of its body are. -/
theorem isScanned_loop {counter : String} {first last step : Expr} {body : List Statement}
    {loc : Location}
    (hchildren : ∀ child ∈ body, ∀ {declared : String → Bool}, child.isLaidOut = true →
      child.isSpellable declared = true → child.IsScanned gap)
    (hlaid : (loop counter first last step body loc).isLaidOut = true)
    (h : (loop counter first last step body loc).isSpellable declared = true) :
    (loop counter first last step body loc).IsScanned gap := by
  intro rest hrest
  simp only [Statement.isSpellable, Bool.and_eq_true] at h
  obtain ⟨⟨⟨⟨hcounter, hfirst⟩, hlast⟩, hstep⟩, hspellable⟩ := h
  have hbody : ∀ statement ∈ body, statement.IsScanned gap := by
    intro statement hmem
    obtain ⟨declared, hdeclared⟩ := exists_isSpellable_of_mem hspellable statement hmem
    exact hchildren statement hmem (isLaidOut_of_mem hlaid statement hmem).1 hdeclared
  -- what divides `NEXT` from the body ends the body, and the body ends the head
  let closing := (listLead .statement body).marks Mark.colon ++ [.keyword .next]
  have hclosing : ScannedBefore rest closing :=
    .append (Lead.marks_scannedBefore _ _) (.keyword .next (by decide) (by decide) hrest .nil)
  have hend : (listLead .statement body).EndedBy (Mark.text closing ++ rest) := by
    rw [Mark.text_append, List.append_assoc]
    exact Lead.endedBy_marks _ _
  have hdelimits : Delimits
      (Mark.text (listMarks gap Mark.colon .statement body ++ closing) ++ rest) := by
    rw [Mark.text_append, List.append_assoc]
    exact endedBy_listMarks .statement body hend
  have hstepMarks := ScannedBefore.word .step (by decide) (by decide) (.append
    (Expr.marks_scanned gap step hstep _ hdelimits)
    (.append (listMarks_scannedBefore hbody .statement hend) hclosing))
  have hlastMarks := ScannedBefore.word .to_ (by decide) (by decide)
    (.append (Expr.marks_scanned gap last hlast _ (.cons (by decide))) hstepMarks.space)
  exact .word .for_ (by decide) (by decide) (.name hcounter (.cons (by decide))
    (.space (.symbol .eq (by decide) (.space (.append
      (Expr.marks_scanned gap first hfirst _ (.cons (by decide))) hlastMarks.space)))))

end Nested

/-- What is written for a statement is scanned as its tokens. -/
theorem isScanned (gap : Nat) (statement : Statement) {declared : String → Bool}
    (hlaid : statement.isLaidOut = true) (h : statement.isSpellable declared = true) :
    statement.IsScanned gap := by
  induction statement using Statement.induction generalizing declared with
  | step statement ih =>
    intro rest hrest
    -- the pieces of a statement end each other; what `rest` starts with ends the last one only
    cases statement with
    | lineNumber name data loc =>
      rw [Statement.isSpellable, Bool.and_eq_true] at h
      obtain ⟨hname, hdata⟩ := h
      cases data with
      | none => exact .line hname hrest .nil
      | some item =>
        rw [Option.all_some, Bool.and_eq_true] at hdata
        exact .line hname (.cons (by decide)) (.space
          (ScannedBefore.nil.token (Lexeme.first?_ofData hdata.2 hrest) Token.Kind.noConfusion))
    | label name loc => exact .symbol .asterisk (by decide) (.name h hrest .nil)
    | dim arrays loc =>
      rw [Statement.isSpellable, Bool.and_eq_true, List.all_eq_true] at h
      refine .word .dim (by decide) (by decide)
        (Mark.commas_scanned (fun item hitem => ?_) rest hrest)
      obtain ⟨array, harray, rfl⟩ := List.mem_map.1 hitem
      exact array.marks_scanned (h.2 array harray)
    | cond condition consequence alternative loc => exact isScanned_cond ih hlaid h rest hrest
    | on value kind targets loc =>
      simp only [Statement.isSpellable, Bool.and_eq_true, List.all_eq_true] at h
      have hword : kind.word ≠ .data ∧ kind.word ≠ .rem := by cases kind <;> decide
      refine .word .on (by decide) (by decide) (.append
        (Expr.marks_scanned gap value h.1.1 _ (.cons (by decide))) (.space
          (.word _ hword.1 hword.2 (Mark.commas_scanned (fun item hitem => ?_) rest hrest))))
      obtain ⟨target, htarget, rfl⟩ := List.mem_map.1 hitem
      exact target.marks_scanned (h.2 target htarget)
    | goto target loc =>
      exact .word .goto (by decide) (by decide) (target.marks_scanned h rest hrest)
    | gosub target loc =>
      exact .word .gosub (by decide) (by decide) (target.marks_scanned h rest hrest)
    | ret loc => exact .keyword .return_ (by decide) (by decide) hrest .nil
    | loop counter first last step body loc => exact isScanned_loop ih hlaid h rest hrest
    | assign name indices value loc =>
      rw [Statement.isSpellable, Bool.and_eq_true] at h
      exact .append (Expr.marks_scanned gap _ h.1 _ (.cons (by decide)))
        (.space (.symbol .eq (by decide) (.space (Expr.marks_scanned gap value h.2 rest hrest))))
    | call function arguments loc => exact Expr.marks_scanned gap _ h rest hrest

end Statement

/-! ## Programs -/

/-- A byte that a listing can start with: a line break, or one that starts a statement, whether or
not a line starts there. -/
def opensListing (b : UInt8) : Bool :=
  b == 0x0A || !(Byte.isSpace b || Byte.isDigit b)

/-- A letter may open a listing. -/
theorem opensListing_of_isLetter {b : UInt8} (h : Byte.isLetter b = true) :
    opensListing b = true := by
  simp only [opensListing, Byte.isSpace, Byte.isBlank, Byte.isLineBreak, Byte.isDigit,
    Byte.isLetter, Bool.or_eq_true, Bool.and_eq_true, decide_eq_true_eq, UInt8.le_iff_toNat_le,
    UInt8.reduceToNat, beq_iff_eq, ← UInt8.toNat_inj, Bool.not_eq_true', ← Bool.not_eq_true] at h ⊢
  omega

/-- A name may open a listing. -/
theorem opensListing_ofName {name : String} (h : isName name = true) (rest : List UInt8) :
    ∀ b ∈ ((Lexeme.ofName name).source ++ rest).head?, opensListing b = true := by
  rw [isName, Bool.and_eq_true] at h
  obtain ⟨-, b, bytes, hsplit, hletter⟩ := Lexeme.wordBytes_encode h.1 .nil
  intro first hfirst
  rw [Lexeme.ofName, hsplit] at hfirst
  cases hfirst
  exact opensListing_of_isLetter hletter

/-- The text of a statement may open a listing. -/
theorem Statement.opensListing_marks {gap : Nat} {declared : String → Bool} {statement : Statement}
    (h : statement.isSpellable declared = true) (rest : List UInt8) :
    ∀ b ∈ (Mark.text (statement.marks gap Mark.colon) ++ rest).head?, opensListing b = true := by
  cases statement with
  | assign name indices value loc =>
    simp only [Statement.isSpellable, Expr.isSpellable, Bool.and_eq_true] at h
    rw [Statement.marks, Expr.marks, List.cons_append, Mark.text_cons, List.append_assoc]
    exact opensListing_ofName h.1.1.1 _
  | call function arguments loc =>
    simp only [Statement.isSpellable, Expr.isSpellable, Bool.and_eq_true] at h
    rw [Statement.marks, Expr.marks, List.cons_append, Mark.text_cons, List.append_assoc]
    exact opensListing_ofName h.1.1 _
  | lineNumber name data loc =>
    intro b hb
    cases data <;> cases hb <;> rfl
  | _ =>
    intro b hb
    cases hb
    rfl

/-- Only a number is another token at the start of a listing. -/
theorem Stream.tokens_fresh {b : UInt8} {bytes : List UInt8} {loc : Location}
    (hspace : Byte.isSpace b = false) (hdigit : Byte.isDigit b = false) :
    (⟨b :: bytes, loc, true, none⟩ : Stream).tokens =
      (⟨b :: bytes, loc, false, none⟩ : Stream).tokens := by
  refine tokens_congr ?_
  -- whether a line opens matters to a number only
  have hfirst : Lexeme.first? true (b :: bytes) = Lexeme.first? false (b :: bytes) := by
    unfold Lexeme.first?
    split
    · rfl
    · rfl
    · rfl
    · rfl
    next heq =>
      cases heq
      rw [hdigit]
      rfl
  simp [next, opensLine, spaces, ahead, hspace, hfirst]

/-- Bytes that are scanned within a line are scanned in the same way as a listing, the line break
in front of them left out. -/
theorem Scans.tokenizesTo {bytes : List UInt8} {faces : List (Token.Kind × String)}
    (h : Scans bytes faces []) (hfirst : ∀ b ∈ bytes.head?, opensListing b = true) :
    TokenizesTo (withoutBreak bytes) faces := by
  -- a line break in front of the bytes would change nothing about their tokens
  have hfresh : ∃ loc, (⟨withoutBreak bytes, .start, true, none⟩ : Stream).tokens =
      (⟨bytes, loc, false, none⟩ : Stream).tokens := by
    unfold withoutBreak
    split
    next rest => exact ⟨⟨0, 1⟩, Stream.tokens_congr rfl⟩
    next hbreak =>
      refine ⟨.start, ?_⟩
      cases bytes with
      | nil => rfl
      | cons b rest =>
        have hb : Byte.isSpace b = false ∧ Byte.isDigit b = false := by
          have hopens := hfirst b rfl
          rw [opensListing, Bool.or_eq_true, beq_iff_eq, Bool.not_eq_true',
            Bool.or_eq_false_iff] at hopens
          exact hopens.resolve_left fun heq => hbreak rest (heq ▸ rfl)
        exact Stream.tokens_fresh hb.1 hb.2
  obtain ⟨loc, hfresh⟩ := hfresh
  obtain ⟨body, finish, hbody, hfaces⟩ := h loc
  refine ⟨body, finish, ?_, hfaces⟩
  rw [tokenize, Stream.ofDelivery_ofBytes, hfresh, hbody]
  rfl

/-- The tokens of a listing. -/
theorem tokenizesTo_listing (gap : Nat) {declared : String → Bool} {program : List Statement}
    (hlaid : Statement.listIsLaidOut true true program = true)
    (h : Statement.listIsSpellable declared program = true) :
    TokenizesTo (listing gap Mark.colon program)
      (Mark.faces (Statement.listMarks gap Mark.colon .start program)) := by
  have hmembers : ∀ statement ∈ program, statement.IsScanned gap := by
    intro statement hmem
    obtain ⟨declared, hdeclared⟩ := Statement.exists_isSpellable_of_mem h statement hmem
    exact statement.isScanned gap (Statement.isLaidOut_of_mem hlaid statement hmem).1 hdeclared
  have hend (lead : Lead) : lead.EndedBy [] := by
    cases lead with
    | start => trivial
    | _ => exact fun b hb => nomatch hb
  -- the scan starts within a line, as if something stood in front of the listing
  have hscan := Statement.listMarks_scannedBefore hmembers .start (hend _)
  rw [ScannedBefore, List.append_nil] at hscan
  refine hscan.tokenizesTo ?_
  cases program with
  | nil => simp [Statement.listMarks]
  | cons head tail =>
    rw [Statement.listIsSpellable, Bool.and_eq_true] at h
    have hmarks : (if head.isLine then [] else Lead.start.marks Mark.colon) = [] := by
      split <;> rfl
    rw [Statement.listMarks, hmarks, List.nil_append, Mark.text_append]
    exact head.opensListing_marks h.1 _

end LineBasic
