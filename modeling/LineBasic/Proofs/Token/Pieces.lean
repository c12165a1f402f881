import Mathlib.Data.List.Basic
import Mathlib.Data.List.Induction
import LineBasic.Proofs.Token.Literals

/-!
# Tokens and the spaces between them

Scanning loses nothing. The bytes of a listing are those that spell its tokens, one after another,
and the spaces before, between and behind them; what a token spells is told by its kind and its
literal, and the place of a token is that of its first byte, by the line feeds and the bytes in
front of it (`exists_pieces`). All bytes are allowed, and so are sources that break off.
-/

namespace LineBasic

/-! ## Places -/

namespace Location

/-- The place behind the first bytes of a listing: one line further down for each line feed, and one
column to the right for each byte behind the last of them. -/
def behind (bytes : List UInt8) : Location :=
  ⟨1 + bytes.count 0x0A, 1 + (bytes.reverse.takeWhile (· != 0x0A)).length⟩

/-- The place behind some bytes moves on with each further one. -/
theorem behind_append_singleton (bytes : List UInt8) (b : UInt8) :
    behind (bytes ++ [b]) = (behind bytes).next b := by
  by_cases hb : b = 0x0A
  · simp [behind, next, hb, Nat.add_assoc]
  · simp [behind, next, hb, Nat.add_assoc]

/-- The place that scanning arrives at, counted from the start. -/
theorem start_after (bytes : List UInt8) : start.after bytes = behind bytes := by
  induction bytes using List.reverseRecOn with
  | nil => rfl
  | append_singleton bytes b ih => rw [after_append, ih, behind_append_singleton]; rfl

end Location

/-! ## How tokens are spelled -/

namespace Byte

/-- Whether bytes are the payload of a remark or of data, from the first one that is no blank up to
a colon or the end of the line. -/
def ArePayload (bytes : List UInt8) : Prop :=
  (∀ b ∈ bytes, isPayload b = true) ∧ ∀ b ∈ bytes.head?, isBlank b = false

/-- A byte of a class without line breaks is none. -/
theorem isLineBreak_eq_false {p : UInt8 → Bool} (hfeed : p 0x0A = false) (hreturn : p 0x0D = false)
    {b : UInt8} (h : p b = true) : isLineBreak b = false := by
  rw [isLineBreak, Bool.or_eq_false_iff, beq_eq_false_iff_ne, beq_eq_false_iff_ne]
  constructor
  · rintro rfl
    rw [hfeed] at h
    cases h
  · rintro rfl
    rw [hreturn] at h
    cases h

end Byte

/-- The bytes spell a token of the kind and with the literal. -/
inductive Spells : Token.Kind → String → List UInt8 → Prop
  /-- A string between quotes. -/
  | str {text : List UInt8} (htext : ∀ b ∈ text, Byte.isString b = true) :
      Spells .str (Utf8.decodeLossy text) (0x22 :: (text ++ [0x22]))
  /-- A string that its line cuts short. Its literal keeps the quote. -/
  | cut {text : List UInt8} (htext : ∀ b ∈ text, Byte.isString b = true) :
      Spells .illegal ("\"" ++ Utf8.decodeLossy text) (0x22 :: text)
  /-- A remark behind an apostrophe. -/
  | remark {blanks text : List UInt8} (hblanks : ∀ b ∈ blanks, Byte.isBlank b = true)
      (htext : Byte.ArePayload text) :
      Spells (.word .rem) (Utf8.decodeLossy text) (0x27 :: (blanks ++ text))
  /-- A remark or data behind the reserved word. -/
  | payload {keyword : Keyword} {blanks text : List UInt8}
      (hkeyword : keyword = .rem ∨ keyword = .data) (hblanks : ∀ b ∈ blanks, Byte.isBlank b = true)
      (htext : Byte.ArePayload text) :
      Spells (.word keyword) (Utf8.decodeLossy text)
        (Utf8.encode keyword.spelling ++ (blanks ++ text))
  /-- A byte that starts no token. Its literal is the character with that code. -/
  | byte {b : UInt8} (hb : Symbol.ofByte? b = none) (hspace : Byte.isSpace b = false) :
      Spells .illegal (String.singleton (Char.ofUInt8 b)) [b]
  /-- Any other token, whose bytes are its literal. -/
  | plain {kind : Token.Kind} {source : List UInt8}
      (hkind : kind ∉ [.str, .illegal, .eof, .word .rem, .word .data])
      (hsource : ∀ b ∈ source, Byte.isLineBreak b = false) :
      Spells kind (Utf8.decodeLossy source) source

namespace Spells

variable {kind : Token.Kind} {literal : String} {source : List UInt8}

/-- No token holds a line break. -/
theorem isLineBreak_eq_false (h : Spells kind literal source) :
    ∀ b ∈ source, Byte.isLineBreak b = false := by
  -- neither strings nor blanks and payloads have bytes of a line break, by what ends them
  have hstring {text : List UInt8} (h : ∀ b ∈ text, Byte.isString b = true) :
      ∀ b ∈ text, Byte.isLineBreak b = false :=
    fun b hb => Byte.isLineBreak_eq_false (by decide) (by decide) (h b hb)
  have hbehind {blanks text : List UInt8} (hblanks : ∀ b ∈ blanks, Byte.isBlank b = true)
      (htext : Byte.ArePayload text) : ∀ b ∈ blanks ++ text, Byte.isLineBreak b = false :=
    List.forall_mem_append.2
      ⟨fun b hb => Byte.isLineBreak_eq_false (by decide) (by decide) (hblanks b hb),
        fun b hb => Byte.isLineBreak_eq_false (by decide) (by decide) (htext.1 b hb)⟩
  cases h with
  | str htext =>
    have hclosed := List.forall_mem_append.2
      ⟨hstring htext, List.forall_mem_singleton.2 (by decide : Byte.isLineBreak 0x22 = false)⟩
    exact List.forall_mem_cons.2 ⟨by decide, hclosed⟩
  | cut htext => exact List.forall_mem_cons.2 ⟨by decide, hstring htext⟩
  | remark hblanks htext => exact List.forall_mem_cons.2 ⟨by decide, hbehind hblanks htext⟩
  | @payload keyword _ _ hkeyword hblanks htext =>
    refine List.forall_mem_append.2 ⟨fun b hb => ?_, hbehind hblanks htext⟩
    -- the payload has a keyword in front, and the keywords are known
    have hword : (Utf8.encode keyword.spelling).all (!Byte.isLineBreak ·) = true := by
      rcases hkeyword with rfl | rfl
      · decide
      · decide
    simpa using List.all_eq_true.1 hword b hb
  | byte _ hspace =>
    rw [Byte.isSpace, Bool.or_eq_false_iff] at hspace
    exact List.forall_mem_singleton.2 hspace.2
  | plain _ hsource => exact hsource

end Spells

/-! ## Lexemes -/

namespace Utf8

/-- Bytes in ASCII are written as they were read. -/
theorem encode_decodeLossy {bytes : List UInt8} (h : ∀ b ∈ bytes, b < 0x80) :
    encode (decodeLossy bytes) = bytes := by
  have hbyte : ∀ b ∈ bytes, String.utf8EncodeChar (Char.ofUInt8 b) = [b] := by
    intro b hb
    have hascii : b.toNat < 0x80 := UInt8.lt_iff_toNat_lt.1 (h b hb)
    rw [utf8EncodeChar_ascii (by rw [toNat_ofUInt8]; omega), toNat_ofUInt8, UInt8.ofNat_toNat]
  rw [encode, toList_decodeLossy_ascii h, List.flatMap_map, List.flatMap_congr hbyte]
  simp

/-- One ASCII byte is decoded as its character. -/
theorem decodeLossy_singleton {b : UInt8} (h : b < 0x80) :
    decodeLossy [b] = String.singleton (Char.ofUInt8 b) := by
  rw [← String.toList_inj, toList_decodeLossy_ascii (List.forall_mem_singleton.2 h),
    String.toList_singleton]
  rfl

end Utf8

/-- The byte of a symbol is its spelling. -/
theorem Symbol.decodeLossy_of_ofByte? {b : UInt8} {symbol : Symbol} (h : ofByte? b = some symbol) :
    Utf8.decodeLossy [b] = symbol.spelling := by
  have hcode : (Char.ofUInt8 b).val.toNat = b.toNat := Utf8.toNat_ofUInt8 b
  -- whatever the symbol is, its character stands for the byte
  suffices hchar : symbol.spelling = String.singleton (Char.ofUInt8 b) ∧ b.toNat < 0x80 by
    rw [Utf8.decodeLossy_singleton (UInt8.lt_iff_toNat_lt.2 hchar.2), hchar.1]
  rw [← hcode]
  unfold ofByte? at h
  split at h <;> cases h
  all_goals
    next hsymbol =>
      rw [hsymbol]
      decide

namespace Lexeme

variable {b : UInt8} {bytes rest : List UInt8}

/-- The bytes of a word may be in a word, or end it as the dollar sign. -/
theorem mem_wordBytes (h : b ∈ wordBytes bytes) : Byte.isWord b = true ∨ b = 0x24 := by
  unfold wordBytes at h
  split at h
  · rcases List.mem_append.1 h with h | h
    · exact .inl (mem_takeWhile h)
    · exact .inr (List.mem_singleton.1 h)
  · exact .inl (mem_takeWhile h)

/-- The bytes of a number are digits and the point. -/
theorem mem_numberBytes (h : b ∈ numberBytes bytes) : Byte.isDigit b = true ∨ b = 0x2E := by
  unfold numberBytes at h
  split at h
  · rcases List.mem_append.1 h with h | h
    · exact .inl (mem_takeWhile h)
    · rcases List.mem_cons.1 h with h | h
      · exact .inr h
      · exact .inl (mem_takeWhile h)
  · exact .inl (mem_takeWhile h)

/-- The bytes of a payload are such that no payload ends at. -/
theorem arePayload (rest : List UInt8) :
    Byte.ArePayload ((rest.dropWhile Byte.isBlank).takeWhile Byte.isPayload) := by
  refine ⟨fun b hb => mem_takeWhile hb, fun b hb => ?_⟩
  -- the blanks in front have been dropped
  rw [List.head?_takeWhile, Option.mem_filter_iff] at hb
  exact eq_false_of_mem_head?_dropWhile hb.1

/-- A word that is reserved is spelled by its bytes. -/
theorem wordBytes_eq {keyword : Keyword}
    (h : Keyword.ofSpelling? (Utf8.decodeLossy (wordBytes bytes)) = some keyword) :
    wordBytes bytes = Utf8.encode keyword.spelling := by
  have hascii : ∀ b ∈ wordBytes bytes, b < 0x80 := by
    intro b hb
    rcases mem_wordBytes hb with hb | rfl
    · exact (Byte.isWord_ofUInt8 hb).2
    · decide
  have hspelling : keyword.spelling = Utf8.decodeLossy (wordBytes bytes) := by
    simpa using List.find?_some h
  rw [hspelling, Utf8.encode_decodeLossy hascii]

/-- No word spans lines. -/
theorem isLineBreak_of_mem_wordBytes (h : b ∈ wordBytes bytes) : Byte.isLineBreak b = false := by
  rcases mem_wordBytes h with hb | rfl
  · exact Byte.isLineBreak_eq_false (by decide) (by decide) hb
  · decide

/-- No number spans lines. -/
theorem isLineBreak_of_mem_numberBytes (h : b ∈ numberBytes bytes) :
    Byte.isLineBreak b = false := by
  rcases mem_numberBytes h with hb | rfl
  · exact Byte.isLineBreak_eq_false (by decide) (by decide) hb
  · decide

/-- The bytes of a lexeme spell it. -/
theorem first?_spells {opensLine : Bool} {lexeme : Lexeme}
    (h : first? opensLine bytes = some lexeme) (hhead : ∀ b ∈ bytes.head?, Byte.isSpace b = false) :
    Spells lexeme.kind lexeme.literal lexeme.source := by
  cases front_of_first? h with
  | str => exact .str fun _ => mem_takeWhile
  | cut => exact .cut fun _ => mem_takeWhile
  | remark rest => exact .remark (fun _ => mem_takeWhile) (arePayload rest)
  | notEq =>
    have hdecode : Utf8.decodeLossy [0x3C, 0x3E] = "<>" := by decide +kernel
    rw [← hdecode]
    exact .plain (by decide) (List.forall_mem_cons.2
      ⟨by decide, List.forall_mem_singleton.2 (by decide)⟩)
  | payload _ hkeyword hword =>
    rw [withPayload, wordBytes_eq hword, List.append_assoc]
    exact .payload hkeyword (fun _ => mem_takeWhile) (arePayload _)
  | reserved _ hkeyword =>
    exact .plain (by simpa using hkeyword) fun _ => isLineBreak_of_mem_wordBytes
  | name => exact .plain (by simp) fun _ => isLineBreak_of_mem_wordBytes
  | lineNo =>
    exact .plain (by simp) fun b hb =>
      Byte.isLineBreak_eq_false (by decide) (by decide) (mem_takeWhile hb)
  | num => exact .plain (by simp) fun _ => isLineBreak_of_mem_numberBytes
  | symbol hsymbol =>
    rw [← Symbol.decodeLossy_of_ofByte? hsymbol]
    exact .plain (by simp) (List.forall_mem_singleton.2 (Bool.or_eq_false_iff.1 (hhead _ rfl)).2)
  | byte _ hb => exact .byte hb (hhead _ rfl)

end Lexeme

/-! ## Listings -/

/-- A token of a listing, the spaces in front of it and the bytes that spell it. -/
structure Piece where
  /-- The spaces and line breaks in front of the token. -/
  spaces : List UInt8
  /-- The bytes that spell the token. -/
  source : List UInt8
  /-- The token. -/
  token : Token
  isSpace_of_mem_spaces : ∀ b ∈ spaces, Byte.isSpace b = true
  source_ne_nil : source ≠ []
  isLineBreak_of_mem_source : ∀ b ∈ source, Byte.isLineBreak b = false
  spells : Spells token.kind token.literal source

/-- All bytes of a piece. -/
def Piece.bytes (piece : Piece) : List UInt8 :=
  piece.spaces ++ piece.source

namespace Stream

theorem isSpace_head?_ahead (stream : Stream) :
    ∀ b ∈ stream.ahead.head?, Byte.isSpace b = false :=
  fun _ => Lexeme.eq_false_of_mem_head?_dropWhile

/-- Each step but the last takes one piece. -/
theorem exists_piece {stream : Stream} (h : stream.next.token.kind ≠ .eof) :
    ∃ piece : Piece, stream.next.token = piece.token ∧
      stream.unread = piece.bytes ++ stream.next.rest.unread ∧
      stream.next.rest.loc = stream.loc.after piece.bytes ∧
      piece.token.loc = stream.loc.after piece.spaces := by
  obtain ⟨lexeme, htakes⟩ := exists_takes h
  have hspells := Lexeme.first?_spells htakes.first stream.isSpace_head?_ahead
  refine ⟨⟨stream.spaces, lexeme.source,
    ⟨lexeme.kind, lexeme.literal, stream.loc.after stream.spaces⟩, fun _ => isSpace_of_mem_spaces,
    Lexeme.first?_source_ne_nil htakes.first, hspells.isLineBreak_eq_false, hspells⟩,
    htakes.token, htakes.unread, ?_, rfl⟩
  rw [htakes.loc, Piece.bytes, Location.after_append]

/-- What is unread consists of the pieces of the tokens, and of spaces at the end. -/
theorem exists_pieces_unread (stream : Stream) :
    ∃ (pieces : List Piece) (rest : List UInt8),
      stream.unread = pieces.flatMap Piece.bytes ++ rest ∧
      (∀ b ∈ rest, Byte.isSpace b = true) ∧
      stream.tokens = pieces.map Piece.token ++ [.endAt (stream.loc.after stream.unread)] ∧
      ∀ before piece after, pieces = before ++ piece :: after →
        piece.token.loc = stream.loc.after (before.flatMap Piece.bytes ++ piece.spaces) := by
  induction stream using Stream.induction with
  | last stream hend =>
    have hends := ends_of_eof hend
    refine ⟨[], stream.unread, rfl, fun b hb => ?_, ?_, by simp⟩
    · exact isSpace_of_mem_spaces (hends.spaces ▸ hb)
    · rw [tokens_of_eof hend, hends.token]
      rfl
  | step stream hend ih =>
    obtain ⟨piece, htoken, hunread, hloc, hplace⟩ := exists_piece hend
    obtain ⟨pieces, rest, hrest, hspaces, htokens, hplaces⟩ := ih
    refine ⟨piece :: pieces, rest, ?_, hspaces, ?_, ?_⟩
    · rw [hunread, hrest, List.flatMap_cons, List.append_assoc]
    · rw [tokens_of_ne_eof hend, htoken, htokens, hloc, ← Location.after_append, ← hunread]
      rfl
    · intro before other after heq
      -- the first piece, or one of those behind it
      cases before with
      | nil =>
        cases heq
        exact hplace
      | cons head before =>
        cases heq
        rw [hplaces before other after rfl, hloc, ← Location.after_append, List.flatMap_cons,
          List.append_assoc]

end Stream

/-- Before the first token, all bytes are unread. -/
theorem Stream.unread_ofDelivery (delivery : Delivery) :
    (ofDelivery delivery).unread = delivery.bytes ∧ (ofDelivery delivery).loc = .start := by
  rw [ofDelivery, unread_settled, loc_settled]
  exact ⟨rfl, rfl⟩

/-- The bytes of a listing are those of its tokens, with spaces before, between and behind them, and
every token stands where its first byte does. -/
theorem exists_pieces (delivery : Delivery) :
    ∃ (pieces : List Piece) (rest : List UInt8),
      delivery.bytes = pieces.flatMap Piece.bytes ++ rest ∧
      (∀ b ∈ rest, Byte.isSpace b = true) ∧
      (Stream.ofDelivery delivery).tokens =
        pieces.map Piece.token ++ [.endAt (.behind delivery.bytes)] ∧
      ∀ before piece after, pieces = before ++ piece :: after →
        piece.token.loc = .behind (before.flatMap Piece.bytes ++ piece.spaces) := by
  have h := (Stream.ofDelivery delivery).exists_pieces_unread
  obtain ⟨hunread, hloc⟩ := Stream.unread_ofDelivery delivery
  simpa only [hunread, hloc, Location.start_after] using h

/-- The literal of a string that its line cuts short is not its payload alone. -/
theorem tokenize_cut :
    tokenize (Utf8.encode "\"abc") = [⟨.illegal, "\"abc", ⟨1, 1⟩⟩, .endAt ⟨1, 5⟩] ∧
      ∀ payload, Utf8.encode "\"abc" = 0x22 :: payload → "\"abc" ≠ Utf8.decodeLossy payload := by
  refine ⟨by decide +kernel, fun payload h => ?_⟩
  cases h
  decide +kernel

end LineBasic
