import LineBasic.Text.Utf8
import LineBasic.Token

/-!
# Lexemes

The token at the front of a byte list, with the bytes that spell it. Classes of bytes are
ASCII classes: any other byte only occurs in strings, remarks and data, or is illegal.
-/

namespace LineBasic

namespace Byte

/-- A space or a tab. -/
def isBlank (b : UInt8) : Bool := b == 0x20 || b == 0x09

/-- A line feed or a carriage return. -/
def isLineBreak (b : UInt8) : Bool := b == 0x0A || b == 0x0D

/-- A byte that may stand between tokens. -/
def isSpace (b : UInt8) : Bool := isBlank b || isLineBreak b

/-- A decimal digit. -/
def isDigit (b : UInt8) : Bool := 0x30 ≤ b && b ≤ 0x39

/-- A letter of either case. -/
def isLetter (b : UInt8) : Bool := (0x41 ≤ b && b ≤ 0x5A) || (0x61 ≤ b && b ≤ 0x7A)

/-- A byte that continues a word. -/
def isWord (b : UInt8) : Bool := isLetter b || isDigit b

/-- A byte of a string: neither the closing quote nor the end of the line. -/
def isString (b : UInt8) : Bool := b != 0x22 && !isLineBreak b

/-- A byte of a remark or of data: neither a colon nor the end of the line. -/
def isPayload (b : UInt8) : Bool := b != 0x3A && !isLineBreak b

end Byte

/-- The symbol that a byte spells on its own. -/
def Symbol.ofByte? (b : UInt8) : Option Symbol :=
  match Char.ofUInt8 b with
  | '+' => some plus
  | '-' => some minus
  | '*' => some asterisk
  | '/' => some slash
  | '<' => some lt
  | '>' => some gt
  | '=' => some eq
  | ';' => some semicolon
  | ',' => some comma
  | ':' => some colon
  | '(' => some lparen
  | ')' => some rparen
  | _ => none

/-- A token without its place, and the bytes that spell it. -/
structure Lexeme where
  /-- What the token is. -/
  kind : Token.Kind
  /-- Its text. -/
  literal : String
  /-- The bytes that spell it. -/
  source : List UInt8
  deriving DecidableEq, Repr

namespace Lexeme

/-- A token that takes the rest of its statement as payload: the bytes that open it, the
blanks after them, which are dropped, and the payload. -/
def withPayload (kind : Token.Kind) (opening rest : List UInt8) : Lexeme :=
  let payload := (rest.dropWhile Byte.isBlank).takeWhile Byte.isPayload
  ⟨kind, Utf8.decodeLossy payload, opening ++ rest.takeWhile Byte.isBlank ++ payload⟩

/-- A string, from the bytes after its opening quote. One that its line cuts short is
illegal and keeps the quote in its literal. -/
def string (rest : List UInt8) : Lexeme :=
  let payload := rest.takeWhile Byte.isString
  match rest.dropWhile Byte.isString with
  | 0x22 :: _ => ⟨.str, Utf8.decodeLossy payload, 0x22 :: payload ++ [0x22]⟩
  | _ => ⟨.illegal, "\"" ++ Utf8.decodeLossy payload, 0x22 :: payload⟩

/-- The bytes of the word at the front: letters and digits, then a dollar sign if there is
one. -/
def wordBytes (bytes : List UInt8) : List UInt8 :=
  match bytes.dropWhile Byte.isWord with
  | 0x24 :: _ => bytes.takeWhile Byte.isWord ++ [0x24]
  | _ => bytes.takeWhile Byte.isWord

/-- A name or a reserved word. -/
def word (bytes : List UInt8) : Lexeme :=
  let spelled := wordBytes bytes
  let literal := Utf8.decodeLossy spelled
  match Token.Kind.ofWord literal with
  | .word .data => withPayload (.word .data) spelled (bytes.drop spelled.length)
  | .word .rem => withPayload (.word .rem) spelled (bytes.drop spelled.length)
  | kind => ⟨kind, literal, spelled⟩

/-- The bytes of the number at the front: digits with at most one point among or after
them. -/
def numberBytes (bytes : List UInt8) : List UInt8 :=
  match bytes.dropWhile Byte.isDigit with
  | 0x2E :: rest => bytes.takeWhile Byte.isDigit ++ 0x2E :: rest.takeWhile Byte.isDigit
  | _ => bytes.takeWhile Byte.isDigit

/-- A number: a line number if it opens its line. -/
def number (opensLine : Bool) (bytes : List UInt8) : Lexeme :=
  if opensLine then
    ⟨.lineNo, Utf8.decodeLossy (bytes.takeWhile Byte.isDigit), bytes.takeWhile Byte.isDigit⟩
  else
    ⟨.num, Utf8.decodeLossy (numberBytes bytes), numberBytes bytes⟩

/-- A token of one byte. A byte that spells no symbol is illegal, and its literal is the
character with that code. -/
def single (b : UInt8) : Lexeme :=
  match Symbol.ofByte? b with
  | some symbol => ⟨.sym symbol, symbol.spelling, [b]⟩
  | none => ⟨.illegal, String.singleton (Char.ofUInt8 b), [b]⟩

/-- The token at the front of bytes that start with no space, if there are any bytes. -/
def first? (opensLine : Bool) : List UInt8 → Option Lexeme
  | [] => none
  | 0x22 :: rest => some (string rest)
  | 0x27 :: rest => some (withPayload (.word .rem) [0x27] rest)
  | 0x3C :: 0x3E :: _ => some ⟨.sym .notEq, "<>", [0x3C, 0x3E]⟩
  | b :: rest =>
    if Byte.isLetter b then some (word (b :: rest))
    else if Byte.isDigit b then some (number opensLine (b :: rest))
    else some (single b)

/-! ## How lexemes come about -/

/-- The token at the front of some bytes, by the bytes that it starts with and by what ends it. -/
inductive Front (opensLine : Bool) : List UInt8 → Lexeme → Prop
  /-- A string that is closed on its line. -/
  | str {rest later : List UInt8} (hlater : rest.dropWhile Byte.isString = 0x22 :: later) :
      Front opensLine (0x22 :: rest)
        ⟨.str, Utf8.decodeLossy (rest.takeWhile Byte.isString),
          0x22 :: rest.takeWhile Byte.isString ++ [0x22]⟩
  /-- A string that its line cuts short. -/
  | cut {rest : List UInt8} (hopen : ∀ later, rest.dropWhile Byte.isString ≠ 0x22 :: later) :
      Front opensLine (0x22 :: rest)
        ⟨.illegal, "\"" ++ Utf8.decodeLossy (rest.takeWhile Byte.isString),
          0x22 :: rest.takeWhile Byte.isString⟩
  /-- A remark behind an apostrophe. -/
  | remark (rest : List UInt8) :
      Front opensLine (0x27 :: rest) (withPayload (.word .rem) [0x27] rest)
  /-- The symbol of two bytes. -/
  | notEq (rest : List UInt8) :
      Front opensLine (0x3C :: 0x3E :: rest) ⟨.sym .notEq, "<>", [0x3C, 0x3E]⟩
  /-- A reserved word with a payload. -/
  | payload {b : UInt8} {rest : List UInt8} {keyword : Keyword} (hletter : Byte.isLetter b = true)
      (hkeyword : keyword = .rem ∨ keyword = .data)
      (hword : Keyword.ofSpelling? (Utf8.decodeLossy (wordBytes (b :: rest))) = some keyword) :
      Front opensLine (b :: rest)
        (withPayload (.word keyword) (wordBytes (b :: rest))
          ((b :: rest).drop (wordBytes (b :: rest)).length))
  /-- Any other reserved word. -/
  | reserved {b : UInt8} {rest : List UInt8} {keyword : Keyword} (hletter : Byte.isLetter b = true)
      (hkeyword : ¬(keyword = .rem ∨ keyword = .data))
      (hword : Keyword.ofSpelling? (Utf8.decodeLossy (wordBytes (b :: rest))) = some keyword) :
      Front opensLine (b :: rest)
        ⟨.word keyword, Utf8.decodeLossy (wordBytes (b :: rest)), wordBytes (b :: rest)⟩
  /-- A name. -/
  | name {b : UInt8} {rest : List UInt8} (hletter : Byte.isLetter b = true)
      (hname : Keyword.ofSpelling? (Utf8.decodeLossy (wordBytes (b :: rest))) = none) :
      Front opensLine (b :: rest)
        ⟨.ident, Utf8.decodeLossy (wordBytes (b :: rest)), wordBytes (b :: rest)⟩
  /-- A number at the start of a line. -/
  | lineNo {b : UInt8} {rest : List UInt8} (hdigit : Byte.isDigit b = true)
      (hopens : opensLine = true) :
      Front opensLine (b :: rest)
        ⟨.lineNo, Utf8.decodeLossy ((b :: rest).takeWhile Byte.isDigit),
          (b :: rest).takeWhile Byte.isDigit⟩
  /-- A number within a line. -/
  | num {b : UInt8} {rest : List UInt8} (hdigit : Byte.isDigit b = true)
      (hopens : opensLine = false) :
      Front opensLine (b :: rest)
        ⟨.num, Utf8.decodeLossy (numberBytes (b :: rest)), numberBytes (b :: rest)⟩
  /-- A symbol of one byte. -/
  | symbol {b : UInt8} {rest : List UInt8} {symbol : Symbol}
      (hsymbol : Symbol.ofByte? b = some symbol) :
      Front opensLine (b :: rest) ⟨.sym symbol, symbol.spelling, [b]⟩
  /-- A byte that starts no token. -/
  | byte {b : UInt8} {rest : List UInt8} (hquote : b ≠ 0x22) (hb : Symbol.ofByte? b = none) :
      Front opensLine (b :: rest) ⟨.illegal, String.singleton (Char.ofUInt8 b), [b]⟩

/-- A letter starts a word. -/
theorem front_word {opensLine : Bool} {b : UInt8} (rest : List UInt8)
    (hletter : Byte.isLetter b = true) : Front opensLine (b :: rest) (word (b :: rest)) := by
  unfold word Token.Kind.ofWord
  dsimp only
  cases hword : Keyword.ofSpelling? (Utf8.decodeLossy (wordBytes (b :: rest))) with
  | none => exact .name hletter hword
  | some keyword =>
    cases keyword with
    | rem => exact .payload hletter (.inl rfl) hword
    | data => exact .payload hletter (.inr rfl) hword
    | _ => exact .reserved hletter (by decide) hword

/-- All that can be said of what is found at the front, case by case. -/
theorem front_of_first? {opensLine : Bool} {bytes : List UInt8} {lexeme : Lexeme}
    (h : first? opensLine bytes = some lexeme) : Front opensLine bytes lexeme := by
  unfold first? at h
  -- the branches of `first?`: nothing left, a quote, a remark, `<>`, and any other byte
  split at h
  next => cases h
  next =>
    cases h
    unfold string
    split
    next hlater => exact .str hlater
    next hopen => exact .cut hopen
  next =>
    cases h
    exact .remark _
  next =>
    cases h
    exact .notEq _
  next b rest hquote _ _ =>
    split at h
    next hletter =>
      cases h
      exact front_word rest hletter
    next =>
      split at h
      next hdigit =>
        cases h
        unfold number
        split
        next hopens => exact .lineNo hdigit hopens
        next hopens => exact .num hdigit (Bool.not_eq_true _ ▸ hopens)
      next =>
        cases h
        unfold single
        split
        next hsymbol => exact .symbol hsymbol
        next hb => exact .byte hquote hb

/-! ## Where the bytes of a token stand -/

/-- A payload and its opening are at the front of the bytes. -/
theorem withPayload_isPrefix (kind : Token.Kind) (opening rest : List UInt8) :
    (withPayload kind opening rest).source <+: opening ++ rest := by
  have h : rest.takeWhile Byte.isBlank ++ (rest.dropWhile Byte.isBlank).takeWhile Byte.isPayload
      <+: rest := by
    conv => rhs; rw [← List.takeWhile_append_dropWhile (p := Byte.isBlank) (l := rest)]
    exact (List.prefix_append_right_inj _).2 (List.takeWhile_prefix _)
  simpa [withPayload] using h

/-- The bytes of a word are at the front. -/
theorem wordBytes_isPrefix (bytes : List UInt8) : wordBytes bytes <+: bytes := by
  have h := List.takeWhile_append_dropWhile (p := Byte.isWord) (l := bytes)
  unfold wordBytes
  split
  next tail heq =>
    rw [heq] at h
    exact ⟨tail, by simp [h]⟩
  next => exact List.takeWhile_prefix _

theorem wordBytes_append_drop (bytes : List UInt8) :
    wordBytes bytes ++ bytes.drop (wordBytes bytes).length = bytes :=
  List.prefix_iff_eq_append.1 (wordBytes_isPrefix bytes)

/-- The bytes of a number are at the front. -/
theorem numberBytes_isPrefix (bytes : List UInt8) : numberBytes bytes <+: bytes := by
  have h := List.takeWhile_append_dropWhile (p := Byte.isDigit) (l := bytes)
  unfold numberBytes
  split
  next tail heq =>
    rw [heq] at h
    conv => rhs; rw [← h]
    refine (List.prefix_append_right_inj _).2 ?_
    simpa using List.takeWhile_prefix (l := tail) Byte.isDigit
  next => exact List.takeWhile_prefix _

/-- The bytes that spell the first token stand at the front. -/
theorem first?_isPrefix {opensLine : Bool} {bytes : List UInt8} {lexeme : Lexeme}
    (h : first? opensLine bytes = some lexeme) : lexeme.source <+: bytes := by
  cases front_of_first? h with
  | @str rest later hlater =>
    -- the quote that ends the string is one of the bytes
    have hsplit := List.takeWhile_append_dropWhile (p := Byte.isString) (l := rest)
    rw [hlater] at hsplit
    exact ⟨later, by simp [hsplit]⟩
  | cut => simpa using List.takeWhile_prefix _
  | remark rest => exact withPayload_isPrefix _ [0x27] rest
  | notEq rest => exact ⟨rest, rfl⟩
  | @payload b rest keyword =>
    -- the payload is taken from behind the word, so the word is put back in front
    have hprefix := withPayload_isPrefix (.word keyword) (wordBytes (b :: rest))
      ((b :: rest).drop (wordBytes (b :: rest)).length)
    rwa [wordBytes_append_drop] at hprefix
  | reserved | name => exact wordBytes_isPrefix _
  | lineNo => exact List.takeWhile_prefix _
  | num => exact numberBytes_isPrefix _
  | @symbol _ rest | @byte _ rest => exact ⟨rest, rfl⟩

theorem withPayload_source_ne_nil (kind : Token.Kind) {opening : List UInt8} (rest : List UInt8)
    (h : opening ≠ []) : (withPayload kind opening rest).source ≠ [] := by
  simp [withPayload, h]

/-- A word has at least its first letter. -/
theorem wordBytes_ne_nil {b : UInt8} (rest : List UInt8) (h : Byte.isLetter b) :
    wordBytes (b :: rest) ≠ [] := by
  have hb : Byte.isWord b := by simp [Byte.isWord, h]
  unfold wordBytes
  split <;> simp [hb]

/-- A number has at least its first digit. -/
theorem numberBytes_ne_nil {b : UInt8} (rest : List UInt8) (h : Byte.isDigit b) :
    numberBytes (b :: rest) ≠ [] := by
  unfold numberBytes
  split <;> simp [h]

/-- A token is spelled by at least one byte. -/
theorem first?_source_ne_nil {opensLine : Bool} {bytes : List UInt8} {lexeme : Lexeme}
    (h : first? opensLine bytes = some lexeme) : lexeme.source ≠ [] := by
  cases front_of_first? h with
  | str | cut => exact List.cons_ne_nil _ _
  | remark rest => exact withPayload_source_ne_nil _ rest (List.cons_ne_nil _ _)
  | notEq => exact List.cons_ne_nil _ _
  | payload hletter => exact withPayload_source_ne_nil _ _ (wordBytes_ne_nil _ hletter)
  | reserved hletter | name hletter => exact wordBytes_ne_nil _ hletter
  | lineNo hdigit => simp [hdigit]
  | num hdigit => exact numberBytes_ne_nil _ hdigit
  | symbol | byte => exact List.cons_ne_nil _ _

end Lexeme

end LineBasic
