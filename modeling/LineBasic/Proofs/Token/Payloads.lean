import LineBasic.Proofs.Token.Order
import LineBasic.Proofs.Token.Pieces

/-!
# Texts in listings

The literals of strings, remarks and data are parts of the listing, character by character, if the
listing is a UTF-8 text (`literal_eq_slice`). The same holds for a string that its line cuts short.

Scanning cuts the listing between bytes and reads each part on its own, so this is a matter of where
the cuts are. A text can be cut before a byte below 0x80 (`Utf8.IsText.of_append_left`) and behind a
text (`Utf8.IsText.of_append_right`), and all cuts around a literal are of these two kinds. Other
cuts do split characters: outside of literals, each byte of a character is a token of its own.
-/

namespace LineBasic

/-! ## Parts of a text -/

namespace Utf8

/-- The bytes are well-formed, that is, those of some characters. -/
inductive IsText : List UInt8 → Prop
  | nil : IsText []
  | cons (c : Char) {rest : List UInt8} (h : IsText rest) : IsText (String.utf8EncodeChar c ++ rest)

/-- Encoded text is valid. -/
theorem isText_encode (text : String) : IsText (encode text) := by
  unfold encode
  induction text.toList with
  | nil => exact .nil
  | cons c chars ih => exact .cons c ih

/-- ASCII is valid text. -/
theorem isText_of_ascii {bytes : List UInt8} (h : ∀ b ∈ bytes, b < 0x80) : IsText bytes :=
  encode_decodeLossy h ▸ isText_encode _

/-- An encoded character is decoded as it is, whatever comes next. -/
theorem decodeLossy_utf8EncodeChar_append (c : Char) (rest : List UInt8) :
    decodeLossy (String.utf8EncodeChar c ++ rest) = String.singleton c ++ decodeLossy rest := by
  rw [← String.toList_inj, String.toList_append, String.toList_singleton]
  simp only [decodeLossy, String.toList_ofList, units_utf8EncodeChar_append]
  rfl

/-- A byte below 0x80 stands only where a character starts. -/
theorem eq_nil_of_utf8EncodeChar_eq {c : Char} {left right : List UInt8} {b : UInt8}
    (h : String.utf8EncodeChar c = left ++ b :: right) (hb : b < 0x80) : left = [] := by
  have hmem : b ∈ String.utf8EncodeChar c := by simp [h]
  rcases byte_of_mem_utf8EncodeChar hmem with ⟨-, hascii⟩ | hhigh
  · -- the character is this byte alone
    rw [utf8EncodeChar_ascii hascii] at h
    exact (List.append_eq_singleton_iff.1 h.symm).elim And.left (by simp)
  · exact absurd (UInt8.lt_iff_toNat_lt.1 hb) (Nat.not_lt.2 hhigh)

namespace IsText

variable {left right bytes : List UInt8}

/-- Valid text comes back from its decoding. -/
theorem encode_decodeLossy (h : IsText bytes) : encode (decodeLossy bytes) = bytes := by
  induction h with
  | nil => rfl
  | cons c _ ih =>
    rw [decodeLossy_utf8EncodeChar_append, encode, String.toList_append, String.toList_singleton,
      List.singleton_append, List.flatMap_cons]
    exact congrArg _ ih

/-- A text is read on its own. -/
theorem decodeLossy_append (h : IsText left) (right : List UInt8) :
    decodeLossy (left ++ right) = decodeLossy left ++ decodeLossy right := by
  induction h with
  | nil => exact (String.empty_append).symm
  | cons c _ ih =>
    rw [List.append_assoc, decodeLossy_utf8EncodeChar_append, ih,
      decodeLossy_utf8EncodeChar_append, String.append_assoc]

/-- What stands in front of a byte below 0x80 is a text. -/
theorem of_append_left (h : IsText (left ++ right)) (hhead : ∀ b ∈ right.head?, b < 0x80) :
    IsText left := by
  generalize hbytes : left ++ right = bytes at h
  -- character by character, until the cut is reached
  induction h generalizing left with
  | nil => exact (List.append_eq_nil_iff.1 hbytes).1 ▸ .nil
  | cons c h ih =>
    rcases List.append_eq_append_iff.1 hbytes.symm with
      ⟨later, rfl, hlater⟩ | ⟨later, hchar, hright⟩
    · exact .cons c (ih hlater.symm)
    · cases later with
      | nil =>
        rw [List.append_nil] at hchar
        exact List.append_nil left ▸ hchar ▸ .cons c .nil
      | cons b later =>
        have hb : b < 0x80 := hhead b (by rw [hright]; rfl)
        exact eq_nil_of_utf8EncodeChar_eq hchar hb ▸ .nil

/-- Text stays valid without its first character. -/
theorem of_utf8EncodeChar_append {c : Char} (h : IsText (String.utf8EncodeChar c ++ right)) :
    IsText right := by
  generalize hbytes : String.utf8EncodeChar c ++ right = bytes at h
  cases h with
  | nil => exact (List.append_eq_nil_iff.1 hbytes).2 ▸ .nil
  | cons c' h =>
    -- both characters are the first one that is read
    have hunits := congrArg units hbytes
    rw [units_utf8EncodeChar_append, units_utf8EncodeChar_append, List.cons.injEq,
      Option.some.injEq] at hunits
    rw [hunits.1, List.append_cancel_left_eq] at hbytes
    exact hbytes ▸ h

/-- What stands behind a text within a text is a text. -/
theorem of_append_right (h : IsText (left ++ right)) (hleft : IsText left) : IsText right := by
  induction hleft with
  | nil => exact h
  | cons c _ ih =>
    rw [List.append_assoc] at h
    exact ih h.of_utf8EncodeChar_append

end IsText

section Ascii

variable {codes bytes : List UInt8} (hcodes : codes.all (· < 0x80) = true)

include hcodes

/-- What is read from bytes of a class in ASCII. -/
theorem mem_map_of_forall_mem (h : ∀ b ∈ bytes, b ∈ codes) :
    (∀ b ∈ bytes, b < 0x80) ∧ ∀ c ∈ (decodeLossy bytes).toList, c ∈ codes.map Char.ofUInt8 := by
  have hascii : ∀ b ∈ bytes, b < 0x80 :=
    fun b hb => of_decide_eq_true (List.all_eq_true.1 hcodes b (h b hb))
  refine ⟨hascii, fun c hc => ?_⟩
  rw [toList_decodeLossy_ascii hascii] at hc
  obtain ⟨b, hb, rfl⟩ := List.mem_map.1 hc
  exact List.mem_map_of_mem (h b hb)

/-- What is read first from bytes that start with one of a class in ASCII. -/
theorem mem_map_of_head?_mem (h : ∀ b ∈ bytes.head?, b ∈ codes) :
    (∀ b ∈ bytes.head?, b < 0x80) ∧
      ∀ c ∈ (decodeLossy bytes).toList.head?, c ∈ codes.map Char.ofUInt8 := by
  cases bytes with
  | nil => exact ⟨fun _ hb => (nomatch hb), fun _ hc => (nomatch hc)⟩
  | cons b rest =>
    have hmem : ∀ b' ∈ [b], b' ∈ codes := List.forall_mem_singleton.2 (h b rfl)
    obtain ⟨hascii, hread⟩ := mem_map_of_forall_mem hcodes hmem
    have hb : b < 0x80 := hascii b List.mem_cons_self
    refine ⟨fun b' hb' => Option.mem_some_iff.1 hb' ▸ hb, fun c hc => hread c ?_⟩
    rw [← List.singleton_append, (isText_of_ascii hascii).decodeLossy_append,
      decodeLossy_singleton hb, String.toList_append, String.toList_singleton] at hc
    rw [decodeLossy_singleton hb, String.toList_singleton, Option.mem_some_iff.1 hc]
    exact List.mem_cons_self

end Ascii

end Utf8

/-! ## Texts between their marks -/

/-- Whether a token of the kind and with the literal carries text of the listing: a string, a remark
or data, or a string that its line cuts short, whose literal keeps the quote. -/
def Token.Kind.bearsText (kind : Token.Kind) (literal : String) : Bool :=
  match kind with
  | .str | .word .rem | .word .data => true
  | .illegal => literal.toList.head? == some '"'
  | _ => false

/-- The marks behind which the rest of a statement is the literal of one token. -/
def payloadMarks : List (Keyword × String) :=
  [(.rem, "'"), (.rem, Keyword.rem.spelling), (.data, Keyword.data.spelling)]

/-- Between the opening and the rest stands the literal of a token of the kind, and all of it. -/
inductive TextBetween : Token.Kind → (opening literal rest : String) → Prop
  /-- A string goes from one quote to the next. -/
  | str {literal rest : String} (hliteral : literal.toList.all isStringChar = true) :
      TextBetween .str "\"" literal ("\"" ++ rest)
  /-- A string that its line cuts short goes from its quote to the end of the line. -/
  | cut {text rest : String} (htext : text.toList.all isStringChar = true)
      (hrest : ∀ c ∈ rest.toList.head?, c ∈ ['\n', '\r']) :
      TextBetween .illegal "" ("\"" ++ text) rest
  /-- A remark or data goes from the blanks behind its mark to a colon or the end of the line. -/
  | payload {keyword : Keyword} {mark blanks literal rest : String}
      (hmark : (keyword, mark) ∈ payloadMarks) (hblanks : ∀ c ∈ blanks.toList, c ∈ [' ', '\t'])
      (hliteral : isPayload literal = true)
      (hrest : ∀ c ∈ rest.toList.head?, c ∈ [':', '\n', '\r']) :
      TextBetween (.word keyword) (mark ++ blanks) literal rest

/-- Bytes that start with an opening, a payload behind it and what follows, cut only where texts can
be cut. -/
structure Cut (bytes opening payload rest : List UInt8) : Prop where
  bytes_eq : bytes = opening ++ payload ++ rest
  head : ∀ b ∈ bytes.head?, b < 0x80
  opening : ∀ b ∈ opening, b < 0x80
  rest : ∀ b ∈ rest.head?, b < 0x80

/-- The cuts split no character of the text. -/
theorem Cut.eq_append {bytes opening payload rest : List UInt8} (h : Cut bytes opening payload rest)
    {text : String} {front : List UInt8} (htext : Utf8.encode text = front ++ bytes) :
    text = Utf8.decodeLossy front ++ Utf8.decodeLossy opening ++ Utf8.decodeLossy payload ++
        Utf8.decodeLossy rest ∧
      Utf8.encode (Utf8.decodeLossy front) = front := by
  -- a text may be cut before an ASCII byte, so each of the four parts is a text
  have hwhole : Utf8.IsText (front ++ bytes) := htext ▸ Utf8.isText_encode text
  have hfront : Utf8.IsText front := hwhole.of_append_left h.head
  have hopening : Utf8.IsText opening := Utf8.isText_of_ascii h.opening
  have hbytes : Utf8.IsText (opening ++ (payload ++ rest)) := by
    rw [← List.append_assoc, ← h.bytes_eq]
    exact hwhole.of_append_right hfront
  have hpayload : Utf8.IsText payload :=
    (hbytes.of_append_right hopening).of_append_left h.rest
  refine ⟨?_, hfront.encode_decodeLossy⟩
  calc text = Utf8.decodeLossy (front ++ (opening ++ (payload ++ rest))) := by
        rw [← List.append_assoc opening, ← h.bytes_eq, ← htext, Utf8.decodeLossy_encode]
    _ = _ := by
        rw [hfront.decodeLossy_append, hopening.decodeLossy_append, hpayload.decodeLossy_append,
          String.append_assoc, String.append_assoc]

/-- Bytes start with the literal of a token of the kind, between its opening and what follows, and
are cut around it only where texts can be cut. -/
def StartsWithText (bytes : List UInt8) (kind : Token.Kind) (literal : String) : Prop :=
  ∃ opening payload rest, Cut bytes opening payload rest ∧ literal = Utf8.decodeLossy payload ∧
    TextBetween kind (Utf8.decodeLossy opening) literal (Utf8.decodeLossy rest)

/-! ## Lexemes with a text -/

namespace Byte

variable {b : UInt8}

theorem mem_of_isBlank (h : isBlank b = true) : b ∈ [0x20, 0x09] := by
  simpa [isBlank] using h

theorem mem_of_not_isPayload (h : isPayload b = false) : b ∈ [0x3A, 0x0A, 0x0D] := by
  simpa [isPayload, isLineBreak, or_iff_not_imp_left] using h

/-- A line break ends a string that no quote has ended. -/
theorem mem_of_not_isString (h : isString b = false) (hquote : b ≠ 0x22) : b ∈ [0x0A, 0x0D] := by
  simpa [isString, isLineBreak, hquote, or_iff_not_imp_left] using h

end Byte

namespace Lexeme

variable {bytes : List UInt8}

/-- A remark or data behind its mark. -/
theorem withPayload_startsWithText {keyword : Keyword} {mark : String}
    (hmark : (keyword, mark) ∈ payloadMarks) (rest : List UInt8) :
    StartsWithText (Utf8.encode mark ++ rest) (.word keyword)
      (withPayload (.word keyword) (Utf8.encode mark) rest).literal := by
  have hascii : (∀ b ∈ Utf8.encode mark, b < 0x80) ∧ Utf8.encode mark ≠ [] := by
    have hall : payloadMarks.all fun (_, mark) =>
        (Utf8.encode mark).all (· < 0x80) && !(Utf8.encode mark).isEmpty := by decide
    simpa using List.all_eq_true.1 hall _ hmark
  -- the blanks before the payload and the byte behind it are ASCII, so characters do not straddle
  have hspaces : ∀ b ∈ rest.takeWhile Byte.isBlank, b ∈ [0x20, 0x09] :=
    fun b hb => Byte.mem_of_isBlank (mem_takeWhile hb)
  have hstop : ∀ b ∈ ((rest.dropWhile Byte.isBlank).dropWhile Byte.isPayload).head?,
      b ∈ [0x3A, 0x0A, 0x0D] :=
    fun b hb => Byte.mem_of_not_isPayload (eq_false_of_mem_head?_dropWhile hb)
  obtain ⟨hblanks, hblank⟩ := Utf8.mem_map_of_forall_mem (by decide) hspaces
  obtain ⟨hend, hlater⟩ := Utf8.mem_map_of_head?_mem (by decide) hstop
  refine ⟨Utf8.encode mark ++ rest.takeWhile Byte.isBlank,
    (rest.dropWhile Byte.isBlank).takeWhile Byte.isPayload,
    (rest.dropWhile Byte.isBlank).dropWhile Byte.isPayload, ⟨?_, ?_, ?_, hend⟩, rfl, ?_⟩
  · rw [List.append_assoc, List.append_assoc, List.takeWhile_append_dropWhile,
      List.takeWhile_append_dropWhile]
  · rw [List.head?_append_of_ne_nil _ hascii.2]
    exact fun b hb => hascii.1 b (List.mem_of_mem_head? hb)
  · exact List.forall_mem_append.2 ⟨hascii.1, hblanks⟩
  · rw [(Utf8.isText_encode mark).decodeLossy_append, Utf8.decodeLossy_encode]
    exact .payload hmark hblank (isPayload_decodeLossy rest) hlater

/-- A quote is decoded on its own. -/
theorem decodeLossy_quote_cons (bytes : List UInt8) :
    Utf8.decodeLossy (0x22 :: bytes) = "\"" ++ Utf8.decodeLossy bytes := by
  have hmark : Utf8.IsText [0x22] :=
    Utf8.isText_of_ascii (List.forall_mem_singleton.2 (by decide))
  have hread : Utf8.decodeLossy [0x22] = "\"" := by decide +kernel
  rw [← List.singleton_append, hmark.decodeLossy_append, hread]

/-- A string between quotes. -/
theorem str_startsWithText {rest later : List UInt8}
    (hlater : rest.dropWhile Byte.isString = 0x22 :: later) :
    StartsWithText (0x22 :: rest) .str (Utf8.decodeLossy (rest.takeWhile Byte.isString)) := by
  have hsplit := List.takeWhile_append_dropWhile (p := Byte.isString) (l := rest)
  rw [hlater] at hsplit
  refine ⟨[0x22], rest.takeWhile Byte.isString, 0x22 :: later,
    ⟨by simp [hsplit], by simp, by simp, by simp⟩, rfl, ?_⟩
  rw [decodeLossy_quote_cons later, decodeLossy_quote_cons []]
  exact .str (all_isStringChar_takeWhile rest)

/-- A string that its line cuts short. -/
theorem cut_startsWithText {rest : List UInt8}
    (hopen : ∀ later, rest.dropWhile Byte.isString ≠ 0x22 :: later) :
    StartsWithText (0x22 :: rest) .illegal
      ("\"" ++ Utf8.decodeLossy (rest.takeWhile Byte.isString)) := by
  have hsplit := List.takeWhile_append_dropWhile (p := Byte.isString) (l := rest)
  -- no quote follows, so it is the line that ends
  have hbreak : ∀ b ∈ (rest.dropWhile Byte.isString).head?, b ∈ [0x0A, 0x0D] := by
    intro b hb
    obtain ⟨later, hlater⟩ := List.head?_eq_some_iff.1 hb
    exact Byte.mem_of_not_isString (eq_false_of_mem_head?_dropWhile hb)
      fun heq => hopen later (heq ▸ hlater)
  obtain ⟨hend, hlater⟩ := Utf8.mem_map_of_head?_mem (by decide) hbreak
  refine ⟨[], 0x22 :: rest.takeWhile Byte.isString, rest.dropWhile Byte.isString,
    ⟨by simp [hsplit], by simp, by simp, hend⟩, (decodeLossy_quote_cons _).symm, ?_⟩
  exact .cut (all_isStringChar_takeWhile rest) hlater

/-- A lexeme with a text starts with it. -/
theorem first?_startsWithText {opensLine : Bool} {lexeme : Lexeme}
    (h : first? opensLine bytes = some lexeme)
    (hbears : lexeme.kind.bearsText lexeme.literal = true) :
    StartsWithText bytes lexeme.kind lexeme.literal := by
  cases front_of_first? h with
  | str hlater => exact str_startsWithText hlater
  | cut hopen => exact cut_startsWithText hopen
  | remark rest =>
    exact withPayload_startsWithText (by decide : (Keyword.rem, "'") ∈ payloadMarks) rest
  | @payload b rest keyword _ hkeyword hword =>
    have hmark : (keyword, keyword.spelling) ∈ payloadMarks := by
      rcases hkeyword with rfl | rfl <;> decide
    have hstarts := withPayload_startsWithText hmark
      ((b :: rest).drop (wordBytes (b :: rest)).length)
    rwa [← wordBytes_eq hword, wordBytes_append_drop] at hstarts
  | @reserved _ _ keyword _ hkeyword =>
    cases keyword <;> simp [Token.Kind.bearsText] at hbears hkeyword
  | @byte b _ hquote =>
    -- a byte on its own is no text, whatever character has its code
    have hchar : Char.ofUInt8 b = '"' := by simpa [Token.Kind.bearsText] using hbears
    exact absurd (Utf8.ofUInt8_inj hchar) hquote
  | _ => cases hbears

end Lexeme

/-! ## Listings -/

/-- Every token of a stream but the end token is the first lexeme where it stands. -/
theorem Stream.exists_first?_of_mem_tokens (stream : Stream) :
    ∀ token ∈ stream.tokens, token.kind ≠ .eof → ∃ front bytes opensLine lexeme,
      stream.unread = front ++ bytes ∧ Lexeme.first? opensLine bytes = some lexeme ∧
        token = ⟨lexeme.kind, lexeme.literal, stream.loc.after front⟩ := by
  induction stream using Stream.induction with
  | last stream hend =>
    rw [tokens_of_eof hend, List.forall_mem_singleton]
    exact absurd hend
  | step stream hend ih =>
    rw [tokens_of_ne_eof hend, List.forall_mem_cons]
    refine ⟨fun _ => ?_, fun token htoken hkind => ?_⟩
    · obtain ⟨lexeme, htakes⟩ := exists_takes hend
      exact ⟨stream.spaces, stream.ahead, stream.opensLine, lexeme,
        stream.spaces_append_ahead.symm, htakes.first, htakes.token⟩
    · -- a later token is scanned further on, so the piece of the first one is put in front
      obtain ⟨piece, -, hunread, hloc, -⟩ := exists_piece hend
      obtain ⟨front, bytes, opensLine, lexeme, hrest, hlexeme, hplace⟩ := ih token htoken hkind
      rw [hloc, ← Location.after_append] at hplace
      exact ⟨piece.bytes ++ front, bytes, opensLine, lexeme,
        by rw [hunread, hrest, List.append_assoc], hlexeme, hplace⟩

/-- In a listing that is a text, the literal of every string, remark or data, and of every string
that its line cuts short, is what stands there between the opening and the end of it, character by
character. So no character is split, and none is replaced. -/
theorem literal_eq_slice (text : String) :
    ∀ token ∈ tokenize (Utf8.encode text), token.kind.bearsText token.literal = true →
      ∃ before opening after, text = before ++ opening ++ token.literal ++ after ∧
        token.loc = .behind (Utf8.encode before) ∧
        TextBetween token.kind opening token.literal after := by
  intro token htoken hbears
  have hkind : token.kind ≠ .eof := fun heq => by
    rw [heq] at hbears
    cases hbears
  rw [tokenize, Stream.ofDelivery_ofBytes] at htoken
  obtain ⟨front, bytes, opensLine, lexeme, hunread, hlexeme, rfl⟩ :=
    Stream.exists_first?_of_mem_tokens _ token htoken hkind
  obtain ⟨opening, payload, rest, hcut, hliteral, hbetween⟩ :=
    Lexeme.first?_startsWithText hlexeme hbears
  obtain ⟨htext, hfront⟩ := hcut.eq_append hunread
  refine ⟨Utf8.decodeLossy front, Utf8.decodeLossy opening, Utf8.decodeLossy rest, ?_, ?_, hbetween⟩
  · rw [hliteral]
    exact htext
  · rw [hfront, ← Location.start_after]

/-- The theorem at a string between characters of two bytes each, which are two tokens each. -/
theorem literal_eq_slice_accents :
    tokenize (Utf8.encode "é\"naïve\"é") =
      [⟨.illegal, "Ã", ⟨1, 1⟩⟩, ⟨.illegal, "©", ⟨1, 2⟩⟩, ⟨.str, "naïve", ⟨1, 3⟩⟩,
        ⟨.illegal, "Ã", ⟨1, 11⟩⟩, ⟨.illegal, "©", ⟨1, 12⟩⟩, .endAt ⟨1, 13⟩] ∧
      ∃ before opening after, "é\"naïve\"é" = before ++ opening ++ "naïve" ++ after ∧
        (⟨1, 3⟩ : Location) = .behind (Utf8.encode before) ∧
        TextBetween .str opening "naïve" after := by
  have htokens : tokenize (Utf8.encode "é\"naïve\"é") =
      [⟨.illegal, "Ã", ⟨1, 1⟩⟩, ⟨.illegal, "©", ⟨1, 2⟩⟩, ⟨.str, "naïve", ⟨1, 3⟩⟩,
        ⟨.illegal, "Ã", ⟨1, 11⟩⟩, ⟨.illegal, "©", ⟨1, 12⟩⟩, .endAt ⟨1, 13⟩] := by
    decide +kernel
  exact ⟨htokens, literal_eq_slice _ ⟨.str, "naïve", ⟨1, 3⟩⟩ (by simp [htokens]) rfl⟩

end LineBasic
