import LineBasic.Proofs.Spelling.Text
import LineBasic.Proofs.Text.Utf8
import LineBasic.Proofs.Token.Lines

/-!
# Scanning what is written

The scanner finds the tokens of a written expression, one by one and with their literals
(`Expr.marks_scanned`). A word or a number goes on as long as the bytes allow, so after each of them
the text has to have a byte that ends it: a space, a line break, a parenthesis or a comma
(`Delimits`).
-/

namespace LineBasic

/-! ## Characters and bytes -/

section Ascii

variable {c : Char}

/-- The code points of letters. -/
theorem isAlpha_bounds (h : c.isAlpha = true) :
    65 ≤ c.val.toNat ∧ c.val.toNat ≤ 90 ∨ 97 ≤ c.val.toNat ∧ c.val.toNat ≤ 122 := by
  change (decide (65 ≤ c.val ∧ c.val ≤ 90) ||
    (decide (97 ≤ c.val) && decide (c.val ≤ 122))) = true at h
  simpa [UInt32.le_iff_toNat_le] using h

theorem isDigit_bounds (h : c.isDigit = true) : 48 ≤ c.val.toNat ∧ c.val.toNat ≤ 57 := by
  simpa [Char.isDigit, UInt32.le_iff_toNat_le] using h

/-- A character in the range of ASCII is one byte. -/
theorem utf8EncodeChar_ascii (h : c.val.toNat ≤ 127) :
    String.utf8EncodeChar c = [UInt8.ofNat c.val.toNat] := by
  unfold String.utf8EncodeChar
  exact if_pos h

/-- An ASCII character is one byte, and of a class of bytes that its code is in. -/
theorem utf8EncodeChar_of_class {p : UInt8 → Bool} (hc : c.val.toNat ≤ 127)
    (hp : ∀ b : UInt8, b.toNat = c.val.toNat → p b = true) :
    String.utf8EncodeChar c = [UInt8.ofNat c.val.toNat] ∧
      p (UInt8.ofNat c.val.toNat) = true :=
  ⟨utf8EncodeChar_ascii hc, hp _ (UInt8.toNat_ofNat_of_lt' (show _ < 256 by omega))⟩

/-- A letter is one byte, and a letter among the bytes. -/
theorem utf8EncodeChar_isAlpha (h : c.isAlpha = true) :
    String.utf8EncodeChar c = [UInt8.ofNat c.val.toNat] ∧
      Byte.isLetter (UInt8.ofNat c.val.toNat) = true := by
  have hbounds := isAlpha_bounds h
  refine utf8EncodeChar_of_class (by omega) fun b hb => ?_
  simpa [Byte.isLetter, UInt8.le_iff_toNat_le, hb] using hbounds

/-- A digit is one byte, and a digit among the bytes. -/
theorem utf8EncodeChar_isDigit (h : c.isDigit = true) :
    String.utf8EncodeChar c = [UInt8.ofNat c.val.toNat] ∧
      Byte.isDigit (UInt8.ofNat c.val.toNat) = true := by
  have hbounds := isDigit_bounds h
  refine utf8EncodeChar_of_class (by omega) fun b hb => ?_
  simpa [Byte.isDigit, UInt8.le_iff_toNat_le, hb] using hbounds

/-- A byte of a character outside ASCII is outside ASCII. -/
theorem byte_of_mem_utf8EncodeChar {b : UInt8} (h : b ∈ String.utf8EncodeChar c) :
    b = UInt8.ofNat c.val.toNat ∧ c.val.toNat ≤ 127 ∨ 128 ≤ b.toNat := by
  unfold String.utf8EncodeChar at h
  dsimp only at h
  split at h
  next hascii => exact .inl ⟨List.mem_singleton.1 h, hascii⟩
  next hascii =>
    have hbyte {n : Nat} (hlow : 128 ≤ n) (hlt : n < 256) : 128 ≤ (UInt8.ofNat n).toNat := by
      rw [UInt8.toNat_ofNat_of_lt' hlt]
      exact hlow
    -- two, three or four bytes: a lead byte and bytes that continue it, all from 128 on
    refine .inr ?_
    split at h
    next =>
      simp only [List.mem_cons, List.not_mem_nil, or_false] at h
      rcases h with rfl | rfl <;> exact hbyte (by omega) (by omega)
    next =>
      split at h
      next =>
        simp only [List.mem_cons, List.not_mem_nil, or_false] at h
        rcases h with rfl | rfl | rfl <;> exact hbyte (by omega) (by omega)
      next =>
        simp only [List.mem_cons, List.not_mem_nil, or_false] at h
        rcases h with rfl | rfl | rfl | rfl <;> exact hbyte (by omega) (by omega)

/-- No byte of another character is an ASCII character. -/
theorem byte_ne_of_mem_utf8EncodeChar {b code : UInt8} (hb : b ∈ String.utf8EncodeChar c)
    (hcode : code.toNat ≤ 127) (hne : c ≠ Char.ofUInt8 code) : b ≠ code := by
  rintro rfl
  rcases byte_of_mem_utf8EncodeChar hb with ⟨heq, hascii⟩ | hhigh
  · refine hne (Char.ext (UInt32.toNat_inj.1 ?_))
    rw [show (Char.ofUInt8 b).val.toNat = b.toNat from UInt8.toNat_toUInt32 b, heq,
      UInt8.toNat_ofNat_of_lt' (show _ < 256 by omega)]
  · omega

/-- Where neither a line break nor one more ASCII character may stand, no byte of a character that
may stand there is one of these. -/
theorem not_isLineBreak_of_mem_utf8EncodeChar {b code : UInt8} (hcode : code.toNat ≤ 127)
    (h : (c != Char.ofUInt8 code && c != '\r' && c != '\n') = true)
    (hb : b ∈ String.utf8EncodeChar c) : (b != code && !Byte.isLineBreak b) = true := by
  simp only [Bool.and_eq_true, bne_iff_ne, ne_eq, and_assoc] at h
  obtain ⟨hne, hreturn, hfeed⟩ := h
  simp only [Byte.isLineBreak, Bool.and_eq_true, bne_iff_ne, ne_eq, Bool.not_eq_true',
    Bool.or_eq_false_iff, beq_eq_false_iff_ne]
  exact ⟨byte_ne_of_mem_utf8EncodeChar hb hcode hne,
    byte_ne_of_mem_utf8EncodeChar hb (by decide) hfeed,
    byte_ne_of_mem_utf8EncodeChar hb (by decide) hreturn⟩

end Ascii

/-- A property of the bytes of each character is one of the bytes of the text. -/
theorem forall_mem_flatMap_utf8EncodeChar {chars : List Char} {p : UInt8 → Prop}
    (h : ∀ c ∈ chars, ∀ b ∈ String.utf8EncodeChar c, p b) :
    ∀ b ∈ chars.flatMap String.utf8EncodeChar, p b := by
  intro b hb
  obtain ⟨c, hc, hbyte⟩ := List.mem_flatMap.1 hb
  exact h c hc b hbyte

/-! ## Where a run ends -/

section Runs

variable {α : Type} {p : α → Bool} {body rest : List α}

/-- A run that the next byte breaks off is taken as a whole. -/
theorem takeWhile_append_exact (hbody : ∀ b ∈ body, p b = true)
    (hrest : ∀ b ∈ rest.head?, p b = false) : (body ++ rest).takeWhile p = body := by
  rw [List.takeWhile_append_of_pos hbody]
  cases rest with
  | nil => simp
  | cons b rest => simp [hrest b rfl]

/-- A run that the next byte breaks off is dropped as a whole. -/
theorem dropWhile_append_exact (hbody : ∀ b ∈ body, p b = true)
    (hrest : ∀ b ∈ rest.head?, p b = false) : (body ++ rest).dropWhile p = rest := by
  rw [List.dropWhile_append_of_pos hbody]
  cases rest with
  | nil => simp
  | cons b rest => simp [hrest b rfl]

end Runs

/-- The bytes end a word or a number that stands before them: there are none, or they start with
a space, a line break, a parenthesis or a comma. -/
def Delimits (rest : List UInt8) : Prop :=
  ∀ b ∈ rest.head?, b ∈ [0x0A, 0x20, 0x28, 0x29, 0x2C]

theorem Delimits.nil : Delimits [] := by
  intro b hb
  cases hb

/-- A line feed, a space, a parenthesis or a comma ends a word or a number. -/
theorem Delimits.cons {b : UInt8} {rest : List UInt8} (h : b ∈ [0x0A, 0x20, 0x28, 0x29, 0x2C]) :
    Delimits (b :: rest) := by
  intro first hfirst
  cases hfirst
  exact h

/-- A test that fails on each of the bytes that end words fails on the first byte. -/
theorem Delimits.head {rest : List UInt8} (h : Delimits rest) {p : UInt8 → Bool}
    (hp : [0x0A, 0x20, 0x28, 0x29, 0x2C].all (fun b => !p b) = true) :
    ∀ b ∈ rest.head?, p b = false := by
  intro b hb
  have hb := List.all_eq_true.1 hp b (h b hb)
  simpa using hb

/-! ## Words, numbers, strings and symbols -/

namespace Lexeme

variable {rest : List UInt8}

/-- The characters of a word, taken apart. -/
theorem exists_of_isWordText {chars : List Char} (h : isWordText chars = true) :
    ∃ head word mark, chars = head :: (word ++ mark) ∧ head.isAlpha = true ∧
      (∀ c ∈ word, c.isAlphanum = true) ∧ (mark = [] ∨ mark = ['$']) := by
  cases chars with
  | nil => cases h
  | cons head tail =>
    simp only [isWordText, Bool.and_eq_true, Bool.or_eq_true, beq_iff_eq] at h
    refine ⟨head, tail.takeWhile Char.isAlphanum, tail.dropWhile Char.isAlphanum, ?_, h.1, ?_, h.2⟩
    · rw [List.takeWhile_append_dropWhile]
    · intro c hc
      exact List.all_eq_true.1 List.all_takeWhile c hc

/-- Letters and digits go on with a word. -/
theorem isWord_of_isAlphanum {c : Char} (h : c.isAlphanum = true) :
    ∀ b ∈ String.utf8EncodeChar c, Byte.isWord b = true := by
  rw [Char.isAlphanum, Bool.or_eq_true] at h
  intro b hb
  rcases h with h | h
  · obtain ⟨hbytes, hletter⟩ := utf8EncodeChar_isAlpha h
    rw [hbytes, List.mem_singleton] at hb
    rw [hb, Byte.isWord, hletter, Bool.true_or]
  · obtain ⟨hbytes, hdigit⟩ := utf8EncodeChar_isDigit h
    rw [hbytes, List.mem_singleton] at hb
    rw [hb, Byte.isWord, hdigit, Bool.or_true]

/-- A word is found as a whole, before bytes that end it, and starts with a letter. -/
theorem wordBytes_encode {text : String} (h : isWordText text.toList = true)
    (hrest : Delimits rest) :
    wordBytes (Utf8.encode text ++ rest) = Utf8.encode text ∧
      ∃ b bytes, Utf8.encode text = b :: bytes ∧ Byte.isLetter b = true := by
  obtain ⟨head, word, mark, hchars, hhead, hword, hmark⟩ := exists_of_isWordText h
  obtain ⟨hheadBytes, hletter⟩ := utf8EncodeChar_isAlpha hhead
  have hbytes : Utf8.encode text =
      (head :: word).flatMap String.utf8EncodeChar ++ mark.flatMap String.utf8EncodeChar := by
    rw [Utf8.encode, hchars, ← List.flatMap_append, List.cons_append]
  -- all but a dollar sign at the end goes by the run of letters and digits
  have hall : ∀ b ∈ (head :: word).flatMap String.utf8EncodeChar, Byte.isWord b = true := by
    refine forall_mem_flatMap_utf8EncodeChar fun c hc => isWord_of_isAlphanum ?_
    rcases List.mem_cons.1 hc with rfl | hc
    · rw [Char.isAlphanum, hhead, Bool.true_or]
    · exact hword c hc
  refine ⟨?_, ?_⟩
  · rw [hbytes, List.append_assoc, wordBytes]
    rcases hmark with rfl | rfl
    · -- no dollar sign, so the bytes after the word have to end it
      have hword' := hrest.head (p := Byte.isWord) (by decide)
      have hdollar := hrest.head (p := (· == 0x24)) (by decide)
      rw [List.flatMap_nil, List.nil_append, takeWhile_append_exact hall hword',
        dropWhile_append_exact hall hword', List.append_nil]
      cases rest with
      | nil => rfl
      | cons b rest =>
        have hb : b ≠ 0x24 := by simpa using hdollar b rfl
        simp [hb]
    · -- the dollar sign ends the run and is taken as well, whatever the rest is
      have hdollar : ∀ b ∈ (0x24 :: rest).head?, Byte.isWord b = false := by
        intro b hb
        cases hb
        decide
      have hmark : ['$'].flatMap String.utf8EncodeChar ++ rest = 0x24 :: rest := rfl
      rw [hmark, takeWhile_append_exact hall hdollar, dropWhile_append_exact hall hdollar]
      rfl
  · refine ⟨_, word.flatMap String.utf8EncodeChar ++ mark.flatMap String.utf8EncodeChar, ?_,
      hletter⟩
    rw [hbytes, List.flatMap_cons, hheadBytes]
    rfl

/-- What starts with a letter or a digit is a word or a number. -/
theorem first?_of_isWord {b : UInt8} (opensLine : Bool) (bytes : List UInt8)
    (h : Byte.isWord b = true) :
    first? opensLine (b :: bytes) =
      if Byte.isLetter b then some (word (b :: bytes))
      else some (number opensLine (b :: bytes)) := by
  -- the byte is none of those that `first?` matches on
  have hne (c : UInt8) (hc : Byte.isWord c = false) : b ≠ c := by
    rintro rfl
    rw [hc] at h
    cases h
  have hpair : ¬(b = 0x3C ∧ bytes.head? = some 0x3E) := fun hpair => hne 0x3C (by decide) hpair.1
  rw [first?_cons _ (hne _ (by decide)) (hne _ (by decide)) hpair]
  split
  next => rfl
  next hletter =>
    rw [Byte.isWord, Bool.or_eq_true, or_iff_right hletter] at h
    rw [if_pos h]

/-- A lexeme that starts with a letter is a word. -/
theorem first?_of_isLetter {opensLine : Bool} {source : List UInt8}
    (h : ∃ b bytes, source = b :: bytes ∧ Byte.isLetter b = true) (rest : List UInt8) :
    first? opensLine (source ++ rest) = some (word (source ++ rest)) := by
  obtain ⟨b, bytes, rfl, hletter⟩ := h
  have hword : Byte.isWord b = true := by rw [Byte.isWord, hletter, Bool.true_or]
  rw [List.cons_append, first?_of_isWord _ _ hword, if_pos hletter]

/-- A lexeme that starts with a digit is a number, and where a line opens its number. -/
theorem first?_of_isDigit {opensLine : Bool} {source : List UInt8}
    (h : ∃ b bytes, source = b :: bytes ∧ Byte.isDigit b = true) (rest : List UInt8) :
    first? opensLine (source ++ rest) = some (number opensLine (source ++ rest)) := by
  obtain ⟨b, bytes, rfl, hdigit⟩ := h
  have hword : Byte.isWord b = true := by rw [Byte.isWord, hdigit, Bool.or_true]
  have hletter : ¬Byte.isLetter b = true := by
    simp only [Byte.isDigit, Byte.isLetter, Bool.and_eq_true, Bool.or_eq_true, decide_eq_true_eq,
      UInt8.le_iff_toNat_le, UInt8.reduceToNat] at hdigit ⊢
    omega
  rw [List.cons_append, first?_of_isWord _ _ hword, if_neg hletter]

/-- A word is scanned as what it is, unless it is one that takes a payload. -/
theorem first?_encode_word {text : String} {kind : Token.Kind} (opensLine : Bool)
    (h : isWordText text.toList = true) (hkind : Token.Kind.ofWord text = kind)
    (hdata : kind ≠ .word .data) (hrem : kind ≠ .word .rem) (hrest : Delimits rest) :
    first? opensLine (Utf8.encode text ++ rest) = some ⟨kind, text, Utf8.encode text⟩ := by
  obtain ⟨hbytes, hstart⟩ := wordBytes_encode h hrest
  rw [first?_of_isLetter hstart, word, hbytes, Utf8.decodeLossy_encode, hkind]
  split
  · exact absurd rfl hdata
  · exact absurd rfl hrem
  · rfl

/-- A name is scanned as it is written if something behind it ends the word. -/
theorem first?_ofName {name : String} (opensLine : Bool) (h : isName name = true)
    (hrest : Delimits rest) :
    first? opensLine ((ofName name).source ++ rest) = some (ofName name) := by
  rw [isName, Bool.and_eq_true, Option.isNone_iff_eq_none] at h
  refine first?_encode_word opensLine h.1 ?_ (by decide) (by decide) hrest
  rw [Token.Kind.ofWord, h.2]

/-- The bytes of digits are digits. -/
theorem isDigit_of_mem_flatMap {chars : List Char} (h : ∀ c ∈ chars, c.isDigit = true) :
    ∀ b ∈ chars.flatMap String.utf8EncodeChar, Byte.isDigit b = true := by
  refine forall_mem_flatMap_utf8EncodeChar fun c hc b hb => ?_
  obtain ⟨hbytes, hdigit⟩ := utf8EncodeChar_isDigit (h c hc)
  rw [hbytes, List.mem_singleton] at hb
  rw [hb, hdigit]

/-- What starts with a digit starts with one among the bytes. -/
theorem exists_encode_of_isDigit {text : String} {c : Char} {chars : List Char}
    (htext : text.toList = c :: chars) (hc : c.isDigit = true) :
    ∃ b bytes, Utf8.encode text = b :: bytes ∧ Byte.isDigit b = true := by
  obtain ⟨hbytes, hdigit⟩ := utf8EncodeChar_isDigit hc
  refine ⟨_, chars.flatMap String.utf8EncodeChar, ?_, hdigit⟩
  rw [Utf8.encode, htext, List.flatMap_cons, hbytes]
  rfl

/-- The bytes of a number, before bytes that end it. -/
theorem takeWhile_isDigit_encode {text : String} (h : isDigits text = true)
    (hrest : Delimits rest) :
    (Utf8.encode text ++ rest).takeWhile Byte.isDigit = Utf8.encode text ∧
      (Utf8.encode text ++ rest).dropWhile Byte.isDigit = rest ∧
      ∃ b bytes, Utf8.encode text = b :: bytes ∧ Byte.isDigit b = true := by
  rw [isDigits, Bool.and_eq_true, Bool.not_eq_true', List.isEmpty_eq_false_iff,
    List.all_eq_true] at h
  have hall : ∀ b ∈ Utf8.encode text, Byte.isDigit b = true := isDigit_of_mem_flatMap h.2
  have hdigits := hrest.head (p := Byte.isDigit) (by decide)
  obtain ⟨c, chars, hchars⟩ := List.exists_cons_of_ne_nil h.1
  exact ⟨takeWhile_append_exact hall hdigits, dropWhile_append_exact hall hdigits,
    exists_encode_of_isDigit hchars (h.2 c (hchars ▸ List.mem_cons_self))⟩

/-- A number is scanned as it is written if something behind it ends the number. -/
theorem first?_ofDigits {digits : String} (h : isDigits digits = true) (hrest : Delimits rest) :
    first? false ((ofDigits digits).source ++ rest) = some (ofDigits digits) := by
  obtain ⟨htake, hdrop, hstart⟩ := takeWhile_isDigit_encode h hrest
  -- no decimal point follows, so the digits are the whole number
  have hpoint := hrest.head (p := (· == 0x2E)) (by decide)
  have hbytes : numberBytes (Utf8.encode digits ++ rest) = Utf8.encode digits := by
    rw [numberBytes, htake, hdrop]
    cases rest with
    | nil => rfl
    | cons b rest =>
      have hb : b ≠ 0x2E := by simpa using hpoint b rfl
      simp [hb]
  rw [ofDigits, first?_of_isDigit hstart, number, hbytes, Utf8.decodeLossy_encode]
  rfl

/-- A number that opens a line is a line number. -/
theorem first?_ofLineNumber {digits : String} (h : isDigits digits = true)
    (hrest : Delimits rest) :
    first? true ((ofLineNumber digits).source ++ rest) = some (ofLineNumber digits) := by
  obtain ⟨htake, -, hstart⟩ := takeWhile_isDigit_encode h hrest
  rw [ofLineNumber, first?_of_isDigit hstart, number, htake, Utf8.decodeLossy_encode]
  rfl

/-- A string is scanned up to the quote that ends it. -/
theorem first?_ofText {text : String} (h : text.toList.all isStringChar = true) :
    first? false ((ofText text).source ++ rest) = some (ofText text) := by
  have hall : ∀ b ∈ Utf8.encode text, Byte.isString b = true := by
    refine forall_mem_flatMap_utf8EncodeChar fun c hc b hb => ?_
    exact not_isLineBreak_of_mem_utf8EncodeChar (by decide) (List.all_eq_true.1 h c hc) hb
  -- the quote that ends the string is what breaks off the run
  have hquote : ∀ b ∈ (0x22 :: rest).head?, Byte.isString b = false := by
    intro b hb
    cases hb
    decide
  have hsource : (ofText text).source ++ rest = 0x22 :: (Utf8.encode text ++ 0x22 :: rest) := by
    simp [ofText]
  rw [hsource]
  change some (string _) = _
  rw [string, takeWhile_append_exact hall hquote, dropWhile_append_exact hall hquote,
    Utf8.decodeLossy_encode]
  rfl

/-- A symbol is scanned as it is, except that `<` in front of `>` is part of `<>`. -/
theorem first?_ofSymbol {symbol : Symbol} (h : symbol = .lt → rest.head? ≠ some 0x3E) :
    first? false ((ofSymbol symbol).source ++ rest) = some (ofSymbol symbol) := by
  -- only `<` could be longer than it is: before `>` it would be `<>`
  cases symbol with
  | lt =>
    have hpair : ¬((0x3C : UInt8) = 0x3C ∧ rest.head? = some 0x3E) := fun hpair => h rfl hpair.2
    exact (first?_cons false (by decide) (by decide) hpair).trans rfl
  | _ => rfl

/-- A keyword is scanned as a word and told from a name by its spelling. -/
theorem first?_ofKeyword {keyword : Keyword}
    (h : isWordText keyword.spelling.toList = true)
    (hkind : Token.Kind.ofWord keyword.spelling = .word keyword) (hdata : keyword ≠ .data)
    (hrem : keyword ≠ .rem) (hrest : Delimits rest) :
    first? false ((ofKeyword keyword).source ++ rest) = some (ofKeyword keyword) := by
  refine first?_encode_word false h hkind ?_ ?_ hrest
  · rintro ⟨⟩
    exact hdata rfl
  · rintro ⟨⟩
    exact hrem rfl

/-- A sign is scanned as it is written. -/
theorem first?_unary (op : UnaryOp) (hrest : Delimits rest) :
    first? false (op.lexeme.source ++ rest) = some op.lexeme := by
  cases op with
  | neg => exact first?_ofSymbol (fun h => by cases h)
  | _ => exact first?_ofKeyword (by decide) (by decide) (by decide) (by decide) hrest

/-- A binary operator is scanned as it is written. -/
theorem first?_binary (op : BinaryOp) (hrest : Delimits rest) :
    first? false (op.lexeme.source ++ rest) = some op.lexeme := by
  have hgreater : rest.head? ≠ some 0x3E := by
    intro hhead
    have hmem := hrest 0x3E hhead
    revert hmem
    decide
  cases op with
  | and | or => exact first?_ofKeyword (by decide) (by decide) (by decide) (by decide) hrest
  | _ => exact first?_ofSymbol fun _ => hgreater

/-- No token starts with a space. -/
theorem isSpace_of_first? {opensLine : Bool} {b : UInt8} {bytes : List UInt8} {lexeme : Lexeme}
    (h : first? opensLine (b :: bytes) = some lexeme) (hkind : lexeme.kind ≠ .illegal) :
    Byte.isSpace b = false := by
  rw [← Bool.not_eq_true]
  intro hspace
  simp only [Byte.isSpace, Byte.isBlank, Byte.isLineBreak, Bool.or_eq_true, beq_iff_eq] at hspace
  -- each of the four spaces would be a single byte that is no token
  rcases hspace with (rfl | rfl) | rfl | rfl <;> cases h <;> exact hkind rfl

end Lexeme

/-! ## From text to tokens -/

/-- A stream that starts with a token gives it and goes on within the line. -/
theorem Stream.tokens_of_first? {fresh : Bool} {lexeme : Lexeme} {rest : List UInt8}
    (loc : Location) (h : Lexeme.first? fresh (lexeme.source ++ rest) = some lexeme)
    (hkind : lexeme.kind ≠ .illegal) :
    (⟨lexeme.source ++ rest, loc, fresh, none⟩ : Stream).tokens =
      [⟨lexeme.kind, lexeme.literal, loc⟩] ++
        (⟨rest, loc.after lexeme.source, false, none⟩ : Stream).tokens := by
  obtain ⟨b, bytes, hbytes⟩ := List.exists_cons_of_ne_nil
    (List.append_ne_nil_of_left_ne_nil (Lexeme.first?_source_ne_nil h) rest)
  -- the lexeme starts with no space, so the stream passes over nothing before it
  have hspace : Byte.isSpace b = false := Lexeme.isSpace_of_first? (hbytes ▸ h) hkind
  let stream : Stream := ⟨lexeme.source ++ rest, loc, fresh, none⟩
  have hspaces : stream.spaces = [] := by
    simp [stream, spaces, hbytes, hspace]
  have hahead : stream.ahead = lexeme.source ++ rest := by
    simp [stream, ahead, hbytes, hspace]
  have hlexeme : Lexeme.first? stream.opensLine stream.ahead = some lexeme := by
    rw [hahead, opensLine, hspaces, List.any_nil, Bool.or_false]
    exact h
  have hnext := next_of_some hlexeme rfl
  have hne : stream.next.token.kind ≠ .eof := by
    rw [hnext]
    exact Lexeme.first?_kind_ne_eof h
  change stream.tokens = _
  rw [tokens_of_ne_eof hne, hnext, hspaces, hahead, List.drop_left]
  rfl

/-- What a token says, its place left out. -/
def Token.face (token : Token) : Token.Kind × String := (token.kind, token.literal)

/-- What a lexeme says. -/
def Lexeme.face (lexeme : Lexeme) : Token.Kind × String := (lexeme.kind, lexeme.literal)

/-- Within a line, the scanner takes the bytes for these tokens, up to the rest. -/
def Scans (bytes : List UInt8) (faces : List (Token.Kind × String)) (rest : List UInt8) : Prop :=
  ∀ loc, ∃ tokens loc', (⟨bytes, loc, false, none⟩ : Stream).tokens =
      tokens ++ (⟨rest, loc', false, none⟩ : Stream).tokens ∧ tokens.map Token.face = faces

namespace Scans

variable {bytes middle rest : List UInt8} {faces faces' : List (Token.Kind × String)}

theorem refl (bytes : List UInt8) : Scans bytes [] bytes :=
  fun loc => ⟨[], loc, rfl, rfl⟩

/-- Two stretches of bytes are scanned one after the other. -/
theorem trans (h : Scans bytes faces middle) (h' : Scans middle faces' rest) :
    Scans bytes (faces ++ faces') rest := by
  intro loc
  obtain ⟨tokens, loc', htokens, hfaces⟩ := h loc
  obtain ⟨tokens', loc'', htokens', hfaces'⟩ := h' loc'
  refine ⟨tokens ++ tokens', loc'', ?_, ?_⟩
  · rw [htokens, htokens', List.append_assoc]
  · rw [List.map_append, hfaces, hfaces']

/-- A space comes to no token. -/
theorem space (rest : List UInt8) : Scans (0x20 :: rest) [] rest := by
  intro loc
  refine ⟨[], loc.next 0x20, ?_, rfl⟩
  -- the space is skipped, and it does not open a line
  exact Stream.tokens_congr rfl

/-- A lexeme at the front of the bytes comes to one token. -/
theorem token {lexeme : Lexeme}
    (h : Lexeme.first? false (lexeme.source ++ rest) = some lexeme)
    (hkind : lexeme.kind ≠ .illegal) : Scans (lexeme.source ++ rest) [lexeme.face] rest :=
  fun loc => ⟨_, _, Stream.tokens_of_first? loc h hkind, rfl⟩

/-- A gap of any width comes to no token. -/
theorem spaces (gap : Nat) (rest : List UInt8) :
    Scans (List.replicate gap 0x20 ++ rest) [] rest := by
  induction gap with
  | zero => exact refl rest
  | succ gap ih => exact (space _).trans ih

theorem symbol (symbol : Symbol) (h : symbol ≠ .lt) (rest : List UInt8) :
    Scans ((Mark.symbol symbol).source ++ rest) [(.sym symbol, symbol.spelling)] rest :=
  token (Lexeme.first?_ofSymbol fun hlt => absurd hlt h) Token.Kind.noConfusion

end Scans

/-- What the tokens among some pieces say. -/
def Mark.faces (marks : List Mark) : List (Token.Kind × String) :=
  (marks.filterMap lexeme?).map Lexeme.face

@[simp]
theorem Mark.faces_nil : faces [] = [] := rfl

@[simp]
theorem Mark.faces_append (left right : List Mark) :
    faces (left ++ right) = faces left ++ faces right := by
  simp [faces]

@[simp]
theorem Mark.faces_token (lexeme : Lexeme) (marks : List Mark) :
    faces (token lexeme :: marks) = lexeme.face :: faces marks := rfl

@[simp]
theorem Mark.faces_space (marks : List Mark) : faces (space :: marks) = faces marks := rfl

@[simp]
theorem Mark.faces_symbol (symbol : Symbol) (marks : List Mark) :
    faces (Mark.symbol symbol :: marks) = (.sym symbol, symbol.spelling) :: faces marks := rfl

/-- A gap shows no faces. -/
@[simp]
theorem Mark.faces_spaces (gap : Nat) : faces (List.replicate gap space) = [] := by
  induction gap with
  | zero => rfl
  | succ gap ih => rw [List.replicate_succ, faces_space, ih]

/-- The pieces are scanned as what they are, before bytes that end words. -/
def Mark.Scanned (marks : List Mark) : Prop :=
  ∀ rest, Delimits rest → Scans (text marks ++ rest) (faces marks) rest

/-- A group is scanned if what is in it is, with its parentheses or without. -/
theorem Mark.Scanned.group {marks : List Mark} (h : Scanned marks) (gap : Nat) (needed : Bool) :
    Scanned (Mark.group gap needed marks) := by
  unfold Mark.group
  split
  next =>
    intro rest hrest
    -- with or without spaces, what follows the pieces in the group ends their last word
    have hclose : Delimits (List.replicate gap 0x20 ++ ((Mark.symbol .rparen).source ++ rest)) := by
      cases gap with
      | zero | succ gap => exact .cons (by decide)
    have hscan := (Scans.symbol .lparen (by decide) _).trans ((Scans.spaces gap _).trans
      ((h _ hclose).trans ((Scans.spaces gap _).trans (Scans.symbol .rparen (by decide) rest))))
    simpa [text_spaces] using hscan
  next => exact h

/-- A list is scanned if its expressions are, each with a comma in front of the next. -/
theorem Expr.listMarks_scanned {gap : Nat} {expressions : List Expr}
    (h : ∀ e ∈ expressions, Mark.Scanned (e.marks gap)) :
    Mark.Scanned (Expr.listMarks gap expressions) := by
  induction expressions with
  | nil => exact fun rest _ => Scans.refl rest
  | cons head tail ih =>
    cases tail with
    | nil => exact h head List.mem_cons_self
    | cons next tail =>
      intro rest hrest
      -- the comma behind the first expression ends its last token
      have hcomma : Delimits ((Mark.symbol .comma).source ++
          0x20 :: (Mark.text (Expr.listMarks gap (next :: tail)) ++ rest)) := .cons (by decide)
      have hscan := (h head List.mem_cons_self _ hcomma).trans
        ((Scans.symbol .comma (by decide) _).trans ((Scans.space _).trans
          (ih (fun e he => h e (List.mem_cons_of_mem _ he)) rest hrest)))
      simpa [Expr.listMarks] using hscan

/-- A list in parentheses is scanned as its tokens, whatever comes after it. -/
theorem Expr.listMarks_scans {gap : Nat} {expressions : List Expr}
    (h : ∀ e ∈ expressions, Mark.Scanned (e.marks gap)) (rest : List UInt8) :
    Scans ((Mark.symbol .lparen).source ++ (Mark.text (Expr.listMarks gap expressions) ++
        ((Mark.symbol .rparen).source ++ rest)))
      ((.sym .lparen, Symbol.lparen.spelling) :: (Mark.faces (Expr.listMarks gap expressions) ++
        [(.sym .rparen, Symbol.rparen.spelling)])) rest := by
  have hclose : Delimits ((Mark.symbol .rparen).source ++ rest) := .cons (by decide)
  exact (Scans.symbol .lparen (by decide) _).trans
    ((Expr.listMarks_scanned h _ hclose).trans (Scans.symbol .rparen (by decide) rest))

/-- What is written for an expression is scanned as its tokens. -/
theorem Expr.marks_scanned {declared : String → Bool} (gap : Nat) (expression : Expr)
    (h : expression.isSpellable declared = true) : Mark.Scanned (expression.marks gap) := by
  -- along the expression: after each piece the text goes on with a byte that ends words
  induction expression using Expr.induction with
  | var name indices loc ih =>
    simp only [isSpellable, Bool.and_eq_true] at h
    have hlist e he := ih e he (Expr.isSpellable_of_mem h.2 e he)
    intro rest hrest
    cases indices with
    | nil =>
      have hscan := Scans.token (Lexeme.first?_ofName false h.1.1 hrest) Token.Kind.noConfusion
      simpa [marks] using hscan
    | cons head tail =>
      have hparen : Delimits ((Mark.symbol .lparen).source ++
          (Mark.text (Expr.listMarks gap (head :: tail)) ++
            ((Mark.symbol .rparen).source ++ rest))) := .cons (by decide)
      have hscan := (Scans.token (Lexeme.first?_ofName false h.1.1 hparen)
        Token.Kind.noConfusion).trans (Expr.listMarks_scans hlist rest)
      simpa [marks] using hscan
  | int literal =>
    simp only [isSpellable, IntLit.isSpellable, Bool.and_eq_true] at h
    intro rest hrest
    have hscan := Scans.token (Lexeme.first?_ofDigits h.1.1 hrest) Token.Kind.noConfusion
    simpa [marks] using hscan
  | str text loc =>
    intro rest hrest
    have hfirst : Lexeme.first? false ((Lexeme.ofText text).source ++ rest) =
        some (Lexeme.ofText text) := Lexeme.first?_ofText h
    have hscan := Scans.token hfirst Token.Kind.noConfusion
    simpa [marks] using hscan
  | unary op operand loc ih =>
    intro rest hrest
    have hspace : Delimits (0x20 :: (Mark.text
        (Mark.group gap (operand.isWeaker Grammar.unaryPower) (operand.marks gap)) ++ rest)) :=
      .cons (by decide)
    have hop : op.lexeme.kind ≠ .illegal := by cases op <;> exact Token.Kind.noConfusion
    have hscan := (Scans.token (Lexeme.first?_unary op hspace) hop).trans
      ((Scans.space _).trans ((ih h).group gap _ rest hrest))
    simpa [marks] using hscan
  | binary op left right loc ih ih' =>
    rw [isSpellable, Bool.and_eq_true] at h
    intro rest hrest
    have hspace (bytes : List UInt8) : Delimits (0x20 :: bytes) := .cons (by decide)
    have hop : op.lexeme.kind ≠ .illegal := by cases op <;> exact Token.Kind.noConfusion
    have hscan := ((ih h.1).group gap (left.isWeaker op.power) _ (hspace _)).trans
      ((Scans.space _).trans ((Scans.token (Lexeme.first?_binary op (hspace _)) hop).trans
        ((Scans.space _).trans ((ih' h.2).group gap (right.isWeaker (op.power + 1)) rest hrest))))
    simpa [marks] using hscan
  | call function arguments loc ih =>
    simp only [isSpellable, Bool.and_eq_true] at h
    have hlist e he := ih e he (Expr.isSpellable_of_mem h.2 e he)
    intro rest hrest
    have hparen : Delimits ((Mark.symbol .lparen).source ++
        (Mark.text (Expr.listMarks gap arguments) ++ ((Mark.symbol .rparen).source ++ rest))) :=
      .cons (by decide)
    have hscan := (Scans.token (Lexeme.first?_ofName false h.1.1 hparen)
      Token.Kind.noConfusion).trans (Expr.listMarks_scans hlist rest)
    simpa [marks] using hscan

/-- The tokens of the listing say this, up to the end token. -/
def TokenizesTo (bytes : List UInt8) (faces : List (Token.Kind × String)) : Prop :=
  ∃ body finish, tokenize bytes = body ++ [.endAt finish] ∧ body.map Token.face = faces

/-- The tokens of a listing that is one line. -/
theorem Scans.tokenizesTo_line {number : String} {bytes : List UInt8}
    {faces : List (Token.Kind × String)} (hnumber : isDigits number = true)
    (hbytes : Delimits bytes) (h : Scans bytes faces []) :
    TokenizesTo ((Lexeme.ofLineNumber number).source ++ bytes) ((.lineNo, number) :: faces) := by
  obtain ⟨tokens, finish, htokens, hfaces⟩ :=
    h (Location.start.after (Lexeme.ofLineNumber number).source)
  have hend : (⟨[], finish, false, none⟩ : Stream).tokens = [.endAt finish] := rfl
  rw [hend] at htokens
  refine ⟨⟨.lineNo, number, .start⟩ :: tokens, finish, ?_, ?_⟩
  · -- the number is a line number, since the stream starts at the start of a line
    rw [tokenize, Stream.ofDelivery_ofBytes, List.cons_append, ← htokens]
    exact Stream.tokens_of_first? .start (Lexeme.first?_ofLineNumber hnumber hbytes)
      Token.Kind.noConfusion
  · rw [List.map_cons, hfaces]
    rfl

/-- The tokens of a line that assigns the value of an expression to a variable. -/
theorem tokenizesTo_assignmentLine {declared : String → Bool} {number name : String} {value : Expr}
    (gap : Nat) (hnumber : isDigits number = true) (hname : isName name = true)
    (hvalue : value.isSpellable declared = true) :
    TokenizesTo (assignmentLine gap number name value)
      ((.lineNo, number) :: (.ident, name) :: (.sym .eq, "=") ::
        Mark.faces (value.marks gap)) := by
  have hspace (bytes : List UInt8) : Delimits (0x20 :: bytes) := .cons (by decide)
  have hmarks : Scans _ _ [] := Expr.marks_scanned gap value hvalue [] .nil
  rw [List.append_nil] at hmarks
  have hscan := (Scans.space _).trans ((Scans.token (Lexeme.first?_ofName false hname (hspace _))
    Token.Kind.noConfusion).trans ((Scans.space _).trans ((Scans.symbol .eq (by decide) _).trans
      ((Scans.space _).trans hmarks))))
  exact hscan.tokenizesTo_line hnumber (hspace _)

end LineBasic
