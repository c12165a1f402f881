import LineBasic.Proofs.Relocation
import LineBasic.Proofs.Token.Order

/-!
# Tokens line by line

A line feed ends every token, and behind it scanning starts afresh. So a listing can be
scanned in two parts that a line feed divides: the tokens are those of the first part without
its end token, and then those of the second part, further down (`tokenize_lineFeed`, and with the
places written out `exists_tokenize_parts`).

A carriage return ends tokens in the same way, only that the places behind it are on the same
line. At the end of a listing either of them only moves the end token (`tokenize_lineBreak`).
-/

namespace LineBasic

/-! ## A line break ends a lexeme -/

/-- A class of bytes without line breaks has none. -/
theorem Byte.eq_false_of_isLineBreak {p : UInt8 → Bool} (hfeed : p 0x0A = false)
    (hreturn : p 0x0D = false) {cut : UInt8} (hcut : isLineBreak cut = true) : p cut = false := by
  rw [isLineBreak, Bool.or_eq_true, beq_iff_eq, beq_iff_eq] at hcut
  rcases hcut with rfl | rfl
  · exact hfeed
  · exact hreturn

section Runs

variable {p : UInt8 → Bool} {cut : UInt8}

/-- A run of bytes ends at a byte that does not belong to it. -/
theorem takeWhile_append_cut (h : p cut = false) (left right : List UInt8) :
    (left ++ cut :: right).takeWhile p = left.takeWhile p := by
  induction left with
  | nil => simp [h]
  | cons b left ih =>
    simp only [List.cons_append, List.takeWhile_cons, ih]

/-- Where the byte of the cut stops a run, the run ends before it or at it. -/
theorem dropWhile_append_cut (h : p cut = false) (left right : List UInt8) :
    (left ++ cut :: right).dropWhile p = left.dropWhile p ++ cut :: right := by
  induction left with
  | nil => simp [h]
  | cons b left ih =>
    simp only [List.cons_append, List.dropWhile_cons, ih]
    split <;> rfl

end Runs

namespace Lexeme

/-- The first token of bytes that start no string, no remark and no `<>`. -/
theorem first?_cons {b : UInt8} {tail : List UInt8} (opensLine : Bool) (hquote : b ≠ 0x22)
    (hremark : b ≠ 0x27) (hpair : ¬(b = 0x3C ∧ tail.head? = some 0x3E)) :
    first? opensLine (b :: tail) =
      if Byte.isLetter b then some (word (b :: tail))
      else if Byte.isDigit b then some (number opensLine (b :: tail))
      else some (single b) := by
  unfold first?
  split
  · simp_all
  · simp_all
  · simp_all
  · simp_all
  next heq =>
    cases heq
    rfl

section Breaks

variable {cut : UInt8} (hcut : Byte.isLineBreak cut = true) (right : List UInt8)

include hcut

/-- No payload reaches beyond a line break. -/
theorem withPayload_lineBreak (kind : Token.Kind) (opening rest : List UInt8) :
    withPayload kind opening (rest ++ cut :: right) = withPayload kind opening rest := by
  have hblank : Byte.isBlank cut = false :=
    Byte.eq_false_of_isLineBreak (by decide) (by decide) hcut
  have hpayload : Byte.isPayload cut = false :=
    Byte.eq_false_of_isLineBreak (by decide) (by decide) hcut
  simp only [withPayload, takeWhile_append_cut hblank, dropWhile_append_cut hblank,
    takeWhile_append_cut hpayload]

/-- No string reaches beyond a line break, closed or not. -/
theorem string_lineBreak (rest : List UInt8) : string (rest ++ cut :: right) = string rest := by
  have hstring : Byte.isString cut = false :=
    Byte.eq_false_of_isLineBreak (by decide) (by decide) hcut
  simp only [string, takeWhile_append_cut hstring, dropWhile_append_cut hstring]
  -- the closing quote, if there is one, stands before the line break
  cases rest.dropWhile Byte.isString with
  | nil =>
    have hquote : cut ≠ 0x22 := fun h => absurd (h ▸ hcut) (by decide)
    simp [hquote]
  | cons b tail =>
    by_cases hb : b = 0x22
    · subst hb
      rfl
    · simp [hb]

/-- The bytes of a word end before a line break. -/
theorem wordBytes_lineBreak (bytes : List UInt8) :
    wordBytes (bytes ++ cut :: right) = wordBytes bytes := by
  have hword : Byte.isWord cut = false :=
    Byte.eq_false_of_isLineBreak (by decide) (by decide) hcut
  simp only [wordBytes, takeWhile_append_cut hword, dropWhile_append_cut hword]
  -- a dollar sign may end the word, and the byte of the cut is none
  cases bytes.dropWhile Byte.isWord with
  | nil =>
    have hdollar : cut ≠ 0x24 := fun h => absurd (h ▸ hcut) (by decide)
    simp [hdollar]
  | cons b tail =>
    by_cases hb : b = 0x24
    · subst hb
      rfl
    · simp [hb]

/-- No word reaches beyond a line break, and a remark or data after it does not either. -/
theorem word_lineBreak (bytes : List UInt8) : word (bytes ++ cut :: right) = word bytes := by
  have hdrop : (bytes ++ cut :: right).drop (wordBytes bytes).length =
      bytes.drop (wordBytes bytes).length ++ cut :: right :=
    List.drop_append_of_le_length (wordBytes_isPrefix bytes).length_le
  simp only [word, wordBytes_lineBreak hcut, hdrop, withPayload_lineBreak hcut]

/-- The bytes of a number end before a line break. -/
theorem numberBytes_lineBreak (bytes : List UInt8) :
    numberBytes (bytes ++ cut :: right) = numberBytes bytes := by
  have hdigit : Byte.isDigit cut = false :=
    Byte.eq_false_of_isLineBreak (by decide) (by decide) hcut
  simp only [numberBytes, takeWhile_append_cut hdigit, dropWhile_append_cut hdigit]
  -- a line break is no decimal point, and it ends the digits behind one too
  cases bytes.dropWhile Byte.isDigit with
  | nil =>
    have hpoint : cut ≠ 0x2E := fun h => absurd (h ▸ hcut) (by decide)
    simp [hpoint]
  | cons b tail =>
    by_cases hb : b = 0x2E
    · subst hb
      simp only [List.cons_append, takeWhile_append_cut hdigit]
    · simp [hb]

/-- No number reaches beyond a line break. -/
theorem number_lineBreak (opensLine : Bool) (bytes : List UInt8) :
    number opensLine (bytes ++ cut :: right) = number opensLine bytes := by
  have hdigit : Byte.isDigit cut = false :=
    Byte.eq_false_of_isLineBreak (by decide) (by decide) hcut
  simp only [number, takeWhile_append_cut hdigit, numberBytes_lineBreak hcut]

/-- The first token of some bytes does not depend on what stands behind a line break. -/
theorem first?_lineBreak (opensLine : Bool) {bytes : List UInt8} (h : bytes ≠ []) :
    first? opensLine (bytes ++ cut :: right) = first? opensLine bytes := by
  obtain ⟨b, rest, rfl⟩ := List.exists_cons_of_ne_nil h
  -- the three openings that `first?` matches on, and then the class of the first byte
  by_cases hquote : b = 0x22
  · subst hquote
    exact congrArg some (string_lineBreak hcut right rest)
  by_cases hremark : b = 0x27
  · subst hremark
    exact congrArg some (withPayload_lineBreak hcut right _ _ rest)
  by_cases hpair : b = 0x3C ∧ rest.head? = some 0x3E
  · obtain ⟨rfl, hhead⟩ := hpair
    obtain ⟨rest, rfl⟩ := List.head?_eq_some_iff.1 hhead
    rfl
  have hpair' : ¬(b = 0x3C ∧ (rest ++ cut :: right).head? = some 0x3E) := by
    have hless : cut ≠ 0x3E := fun h => absurd (h ▸ hcut) (by decide)
    cases rest with
    | nil => simp [hless]
    | cons c rest => simpa using hpair
  rw [List.cons_append, first?_cons _ hquote hremark hpair', first?_cons _ hquote hremark hpair,
    ← List.cons_append, word_lineBreak hcut, number_lineBreak hcut]

end Breaks

end Lexeme

namespace Stream

/-- The tokens of a stream are told by its next step. -/
theorem tokens_congr {stream other : Stream} (h : stream.next = other.next) :
    stream.tokens = other.tokens := by
  rw [tokens, tokens, scans_eq stream, scans_eq other, h]

/-- Without a fault there is nothing to look for. -/
theorem settled_of_fault {stream : Stream} (h : stream.fault = none) :
    stream.settled = stream := by
  obtain ⟨unread, loc, fresh, fault⟩ := stream
  cases h
  unfold settled
  split <;> rfl

/-- The step of a stream in front of a lexeme, no fault being pending. -/
theorem next_of_some {stream : Stream} {lexeme : Lexeme}
    (h : Lexeme.first? stream.opensLine stream.ahead = some lexeme) (hfault : stream.fault = none) :
    stream.next =
      ⟨⟨lexeme.kind, lexeme.literal, stream.loc.after stream.spaces⟩, none,
        ⟨stream.ahead.drop lexeme.source.length,
          (stream.loc.after stream.spaces).after lexeme.source, false, none⟩⟩ := by
  simp only [next, h, hfault]
  rw [settled_of_fault rfl, noticed]
  split <;> rfl

/-! ## Scanning across a line break -/

/-- The stream with a line break and more bytes behind it. -/
def extended (stream : Stream) (cut : UInt8) (right : List UInt8) : Stream :=
  { stream with unread := stream.unread ++ cut :: right }

/-- The stream behind the line break. -/
def newLine (stream : Stream) (cut : UInt8) (right : List UInt8) : Stream :=
  ⟨right, (stream.loc.after stream.unread).next cut, true, none⟩

theorem isSpace_of_mem_spaces {stream : Stream} {b : UInt8} (h : b ∈ stream.spaces) :
    Byte.isSpace b = true :=
  List.all_eq_true.1 List.all_takeWhile b h

/-- After a token, the place at the end of the bytes is still the same. -/
theorem newLine_next_rest {stream : Stream} (h : stream.next.token.kind ≠ .eof) (cut : UInt8)
    (right : List UInt8) : stream.next.rest.newLine cut right = stream.newLine cut right := by
  obtain ⟨lexeme, htakes⟩ := exists_takes h
  rw [newLine, newLine, htakes.loc, htakes.unread, Location.after_append, Location.after_append]

/-- Scanning a token brings up no fault of its own. -/
theorem fault_next_rest {stream : Stream} (hfault : stream.fault = none) :
    stream.next.rest.fault = none := by
  unfold next
  dsimp only
  split <;> rw [hfault, settled_of_fault rfl]

section Across

variable {cut : UInt8} (hcut : Byte.isLineBreak cut = true)

include hcut

/-- Where only spaces are left, the next token is the first behind the line break. -/
theorem next_extended_of_nil {stream : Stream} (hfault : stream.fault = none)
    (h : stream.ahead = []) (right : List UInt8) :
    (stream.extended cut right).next = (stream.newLine cut right).next := by
  -- what is left and the line break are skipped together
  have hall : ∀ b ∈ stream.unread ++ [cut], Byte.isSpace b = true := by
    intro b hb
    rcases List.mem_append.1 hb with hb | hb
    · rw [← (ends_of_nil h).spaces] at hb
      exact isSpace_of_mem_spaces hb
    · rw [List.mem_singleton.1 hb, Byte.isSpace, hcut, Bool.or_true]
  have hunread : (stream.extended cut right).unread = (stream.unread ++ [cut]) ++ right := by
    simp [extended]
  have hspaces : (stream.extended cut right).spaces =
      (stream.unread ++ [cut]) ++ (stream.newLine cut right).spaces := by
    rw [spaces, hunread, List.takeWhile_append_of_pos hall]
    rfl
  have hahead : (stream.extended cut right).ahead = (stream.newLine cut right).ahead := by
    rw [ahead, hunread, List.dropWhile_append_of_pos hall]
    rfl
  -- the line break is among the spaces, so the next token opens a line on both sides
  have hopens : (stream.extended cut right).opensLine = (stream.newLine cut right).opensLine := by
    rw [opensLine, hspaces]
    simp [opensLine, newLine, hcut]
  have hloc : (stream.extended cut right).loc.after (stream.extended cut right).spaces =
      (stream.newLine cut right).loc.after (stream.newLine cut right).spaces := by
    rw [hspaces, Location.after_append, Location.after_append]
    rfl
  have hfault' : (stream.extended cut right).fault = (stream.newLine cut right).fault := hfault
  simp only [next, hloc, hahead, hopens, hfault']

/-- Before a token, the bytes behind the line break are not looked at. -/
theorem next_extended_of_ne_nil {stream : Stream} (hfault : stream.fault = none)
    (h : stream.ahead ≠ []) (right : List UInt8) :
    (stream.extended cut right).next =
      ⟨stream.next.token, none, stream.next.rest.extended cut right⟩ := by
  obtain ⟨b, rest, hahead⟩ := List.exists_cons_of_ne_nil h
  -- the spaces end where they did, since the byte behind them stays
  have hb : Byte.isSpace b = false :=
    Lexeme.eq_false_of_mem_head?_dropWhile (List.head?_eq_some_iff.2 ⟨rest, hahead⟩)
  have hunread : (stream.extended cut right).unread =
      stream.spaces ++ (b :: rest ++ cut :: right) := by
    rw [extended, ← stream.spaces_append_ahead, hahead, List.append_assoc]
  have hspaces : (stream.extended cut right).spaces = stream.spaces := by
    rw [spaces, hunread, List.takeWhile_append_of_pos fun _ => isSpace_of_mem_spaces]
    simp [hb]
  have hahead' : (stream.extended cut right).ahead = stream.ahead ++ cut :: right := by
    rw [ahead, hunread, List.dropWhile_append_of_pos fun _ => isSpace_of_mem_spaces, hahead]
    simp [hb]
  have hopens : (stream.extended cut right).opensLine = stream.opensLine := by
    rw [opensLine, hspaces]
    rfl
  obtain ⟨lexeme, hlexeme⟩ := Lexeme.exists_first? stream.opensLine h
  have hlexeme' : Lexeme.first? (stream.extended cut right).opensLine
      (stream.extended cut right).ahead = some lexeme := by
    rw [hopens, hahead', Lexeme.first?_lineBreak hcut right _ h, hlexeme]
  -- the lexeme lies before the line break
  have hdrop : (stream.ahead ++ cut :: right).drop lexeme.source.length =
      stream.ahead.drop lexeme.source.length ++ cut :: right :=
    List.drop_append_of_le_length (Lexeme.first?_isPrefix hlexeme).length_le
  rw [next_of_some hlexeme' hfault, next_of_some hlexeme hfault, hspaces, hahead', hdrop]
  rfl

/-- The tokens of a stream with a line break in it are those before the line break, the end token
left out, and those behind it. -/
theorem tokens_extended (stream : Stream) (hfault : stream.fault = none) (right : List UInt8) :
    (stream.extended cut right).tokens =
      stream.tokens.dropLast ++ (stream.newLine cut right).tokens := by
  -- along the tokens before the line break; where only spaces are left, the line break is one more
  induction stream using Stream.induction with
  | last stream hend =>
    have hnil := next_kind_eq_eof_iff.1 hend
    rw [tokens_congr (next_extended_of_nil hcut hfault hnil right), tokens_of_eof hend]
    rfl
  | step stream hend ih =>
    have hne := mt next_kind_eq_eof_iff.2 hend
    have hnext := next_extended_of_ne_nil hcut hfault hne right
    have hend' : (stream.extended cut right).next.token.kind ≠ .eof := by
      rw [hnext]
      exact hend
    rw [tokens_of_ne_eof hend', hnext, tokens_of_ne_eof hend, ih (fault_next_rest hfault),
      newLine_next_rest hend]
    obtain ⟨body, loc, hbody, -⟩ := stream.next.rest.tokens_eq_body_append
    simp [hbody, List.dropLast_cons_of_ne_nil]

end Across

/-! ## Scanning further down -/

section Relocate

variable {place : Location → Location}

/-- The stream of the same bytes at another place. -/
def relocate (place : Location → Location) (stream : Stream) : Stream :=
  { stream with loc := place stream.loc }

/-- A change of place that commutes with one byte commutes with any number of them. -/
theorem place_after (hplace : ∀ loc b, place (loc.next b) = (place loc).next b) (loc : Location)
    (bytes : List UInt8) : place (loc.after bytes) = (place loc).after bytes := by
  induction bytes generalizing loc with
  | nil => rfl
  | cons b bytes ih => rw [Location.after_cons, Location.after_cons, ih, hplace]

/-- A change of places that reading on respects changes the tokens in this way only. -/
theorem tokens_relocate (hplace : ∀ loc b, place (loc.next b) = (place loc).next b)
    (stream : Stream) (hfault : stream.fault = none) :
    (stream.relocate place).tokens = stream.tokens.map (·.relocate place) := by
  induction stream using Stream.induction with
  | last stream hend =>
    have hnil := next_kind_eq_eof_iff.1 hend
    have hnil' : (stream.relocate place).ahead = [] := hnil
    rw [tokens_of_eof hend, tokens_of_eof (next_kind_eq_eof_iff.2 hnil'), (ends_of_nil hnil).token,
      (ends_of_nil hnil').token, List.map_singleton]
    simp only [Token.relocate, Token.endAt, place_after hplace]
    rfl
  | step stream hend ih =>
    have hne := mt next_kind_eq_eof_iff.2 hend
    have hne' : (stream.relocate place).ahead ≠ [] := hne
    -- the same bytes have the same first lexeme, wherever they stand
    obtain ⟨lexeme, hlexeme⟩ := Lexeme.exists_first? stream.opensLine hne
    have hlexeme' : Lexeme.first? (stream.relocate place).opensLine (stream.relocate place).ahead =
        some lexeme := hlexeme
    rw [tokens_of_ne_eof hend, tokens_of_ne_eof (mt next_kind_eq_eof_iff.1 hne'), List.map_cons,
      ← ih (fault_next_rest hfault), next_of_some hlexeme hfault, next_of_some hlexeme' hfault]
    simp only [Token.relocate, relocate, place_after hplace]
    rfl

end Relocate

end Stream

theorem Stream.ofDelivery_ofBytes (bytes : List UInt8) :
    Stream.ofDelivery (.ofBytes bytes) = ⟨bytes, .start, true, none⟩ :=
  settled_of_fault rfl

/-- The tokens of two parts with a line feed between them are those of the first part without
its end token, and those of the second part, further down by the lines of the first. -/
theorem tokenize_lineFeed (left right : List UInt8) :
    tokenize (left ++ 0x0A :: right) =
      (tokenize left).dropLast ++
        (tokenize right).map (·.relocate (.down (1 + left.count 0x0A))) := by
  -- the second part starts in the first column, below the lines of the first
  have hplace : (Location.start.after left).next 0x0A =
      Location.start.down (1 + left.count 0x0A) := by
    rw [Location.next, if_pos rfl, Location.line_after]
    simp [Location.start, Location.down, Nat.add_comm]
  have hline := (⟨left, .start, true, none⟩ : Stream).tokens_extended
    (show Byte.isLineBreak 0x0A = true by decide) rfl right
  rw [Stream.newLine, hplace] at hline
  simp only [tokenize, Stream.ofDelivery_ofBytes]
  rw [← Stream.tokens_relocate (Location.down_next _) _ rfl]
  exact hline

/-- Two parts with a line feed between them are scanned each on its own, whatever the first part
breaks off in. Its end token is left out, and the tokens of the second part, the end token included,
stand in their columns, one line further down and one more for each line feed of the first part. -/
theorem exists_tokenize_parts (left right : List UInt8) :
    ∃ body finish,
      tokenize left = body ++ [.endAt finish] ∧
      (∀ token ∈ body, token.kind ≠ .eof) ∧
      tokenize (left ++ 0x0A :: right) =
        body ++ (tokenize right).map fun token =>
          { token with loc := ⟨token.loc.line + (1 + left.count 0x0A), token.loc.column⟩ } := by
  obtain ⟨body, finish, hleft, hbody, -⟩ := tokenize_eq_body_append left
  refine ⟨body, finish, hleft, hbody, ?_⟩
  rw [tokenize_lineFeed, hleft, List.dropLast_concat]
  rfl

/-- A line break at the end only moves the end token. -/
theorem tokenize_lineBreak {cut : UInt8} (hcut : Byte.isLineBreak cut = true) (left : List UInt8) :
    ∃ finish, tokenize (left ++ [cut]) = (tokenize left).dropLast ++ [.endAt finish] := by
  have hline := (⟨left, .start, true, none⟩ : Stream).tokens_extended hcut rfl []
  have hnil : ((⟨left, .start, true, none⟩ : Stream).newLine cut []).ahead = [] := rfl
  rw [Stream.tokens_of_eof (Stream.next_kind_eq_eof_iff.2 hnil),
    (Stream.ends_of_nil hnil).token] at hline
  simp only [tokenize, Stream.ofDelivery_ofBytes]
  exact ⟨_, hline⟩

end LineBasic
