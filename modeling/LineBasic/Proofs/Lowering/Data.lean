import LineBasic.Lowering.Program
import LineBasic.Proofs.Lowering.Integers
import LineBasic.Proofs.Token.Literals

/-!
# Data in C text

The payload of a data line becomes a string literal of C. What such a literal denotes is defined
here by the rules of C with all its escapes (`CText.literal?`). A text that is written with
`CText.quote` denotes itself (`CText.literal?_quote`), but a payload that is a quoted string stands
as it is, and a backslash in it is no backslash for C. So the C text of a payload is one complete
literal for its content if and only if it is no quoted string with a backslash inside
(`data_literal_iff`). For the direction that fails it is enough to count bytes: an escape has more
of them than what it denotes (`CText.exists_front_of_literalFrom`).
-/

namespace LineBasic

namespace CText

/-! ## String literals of C -/

/-- Whether a character is a hexadecimal digit. -/
def isHexDigit (c : Char) : Bool :=
  c.isDigit || ('a' ≤ c && c ≤ 'f') || ('A' ≤ c && c ≤ 'F')

/-- The value of a hexadecimal digit. -/
def hexDigitValue (c : Char) : Nat :=
  if c.isDigit then c.toNat - '0'.toNat else c.toUpper.toNat - 'A'.toNat + 10

/-- The number that hexadecimal digits denote. -/
def hexValue (digits : List Char) : Nat :=
  Nat.ofDigits 16 (digits.reverse.map hexDigitValue)

/-- What an escape denotes that gives a byte by its number and consists of so many characters behind
the backslash. There is no such escape for a number that does not fit in a byte. -/
def numericEscape? (value length : Nat) : Option (List UInt8 × Nat) :=
  if value < 256 then some ([UInt8.ofNat value], length) else none

/-- What an escape denotes that gives a character by the number of its code point, in so many
hexadecimal digits behind the letter. -/
def universalEscape? (length : Nat) (chars : List Char) : Option (List UInt8 × Nat) :=
  let digits := chars.take length
  if digits.length = length ∧ digits.all isHexDigit ∧ (hexValue digits).isValidChar then
    some (String.utf8EncodeChar (Char.ofNat (hexValue digits)), length + 1)
  else
    none

/-- The byte that an escape of one character denotes. -/
def simpleEscape? (c : Char) : Option UInt8 :=
  match c with
  | '\x27' => some 0x27
  | '"' => some 0x22
  | '?' => some 0x3F
  | '\\' => some 0x5C
  | 'a' => some 0x07
  | 'b' => some 0x08
  | 'f' => some 0x0C
  | 'n' => some 0x0A
  | 'r' => some 0x0D
  | 't' => some 0x09
  | 'v' => some 0x0B
  | _ => none

/-- The bytes that an escape denotes, and the number of its characters behind the backslash. The
characters are those behind the backslash, up to the end of the text. -/
def escape? (chars : List Char) : Option (List UInt8 × Nat) :=
  match chars with
  | [] => none
  | 'x' :: rest =>
    let digits := rest.takeWhile isHexDigit
    if digits.isEmpty then none else numericEscape? (hexValue digits) (digits.length + 1)
  | 'u' :: rest => universalEscape? 4 rest
  | 'U' :: rest => universalEscape? 8 rest
  | c :: rest =>
    let digits := ((c :: rest).takeWhile isOctalDigit).take 3
    if digits.isEmpty then (simpleEscape? c).map fun byte => ([byte], 1)
    else numericEscape? (Nat.ofDigits 8 (digitValues digits)) digits.length

/-- Reads a string literal from the characters behind its opening quote, of which the first `skip`
belong to an escape. The result is the bytes up to the first quote that is in no escape, and the
characters behind this quote. -/
def literalFrom : (skip : Nat) → List Char → Option (List UInt8 × List Char)
  | _, [] => none
  | skip + 1, _ :: rest => literalFrom skip rest
  | 0, c :: rest =>
    if c = '"' then some ([], rest)
    else if c = '\n' then none
    else if c = '\\' then
      (escape? rest).bind fun (bytes, length) =>
        (literalFrom length rest).map fun (more, behind) => (bytes ++ more, behind)
    else
      (literalFrom 0 rest).map fun (more, behind) => (String.utf8EncodeChar c ++ more, behind)

/-- The bytes that a text denotes as a string literal of C, without the zero at their end, if it is
one complete literal. -/
def literal? (text : String) : Option (List UInt8) :=
  match text.toList with
  | '"' :: rest =>
    match literalFrom 0 rest with
    | some (bytes, []) => some bytes
    | _ => none
  | _ => none

example : literal? "\"\\x41\\u00e9\\1012\\?\"" = some [0x41, 0xC3, 0xA9, 0x41, 0x32, 0x3F] := by
  decide

/-- A literal is read to its end, with nothing behind the closing quote. -/
theorem literal?_eq_some_iff {text : String} {bytes : List UInt8} :
    literal? ("\"" ++ text) = some bytes ↔ literalFrom 0 text.toList = some (bytes, []) := by
  have hchars : ("\"" ++ text).toList = '"' :: text.toList := String.toList_append
  rw [literal?, hchars]
  match h : literalFrom 0 text.toList with
  | none => simp [h]
  | some (found, []) => simp [h]
  | some (found, c :: behind) => simp [h]

/-! ## Quoted texts -/

/-- A character that is escaped denotes itself. -/
theorem literalFrom_escapeChar {c : Char} {rest : List Char} (h : c ≠ '\n') :
    literalFrom 0 (escapeChar c ++ rest) =
      (literalFrom 0 rest).map fun (more, behind) => (String.utf8EncodeChar c ++ more, behind) := by
  by_cases hbackslash : c = '\\'
  · subst hbackslash
    rfl
  · by_cases hquote : c = '"'
    · subst hquote
      rfl
    · rw [escapeChar, if_neg hbackslash, if_neg hquote, List.singleton_append, literalFrom,
        if_neg hquote, if_neg h, if_neg hbackslash]

/-- A text in which quotes and backslashes are escaped is read up to the quote behind it. -/
theorem literalFrom_flatMap_escapeChar {chars rest : List Char} (h : '\n' ∉ chars) :
    literalFrom 0 (chars.flatMap escapeChar ++ '"' :: rest) =
      some (chars.flatMap String.utf8EncodeChar, rest) := by
  induction chars with
  | nil => rfl
  | cons c chars ih =>
    rw [List.mem_cons, not_or] at h
    rw [List.flatMap_cons, List.append_assoc, literalFrom_escapeChar (Ne.symm h.1), ih h.2]
    rfl

/-- A quoted text denotes itself. -/
theorem literal?_quote {text : String} (h : '\n' ∉ text.toList) :
    literal? (quote text) = some (Utf8.encode text) := by
  rw [quote, String.append_assoc, literal?_eq_some_iff, String.toList_append, String.toList_ofList]
  exact literalFrom_flatMap_escapeChar h

theorem toList_quotes (inner : String) :
    ("\"" ++ inner ++ "\"").toList = '"' :: (inner.toList ++ ['"']) := by
  rw [String.toList_append, String.toList_append]
  rfl

/-- A text is quoted as it stands if and only if it is a text without a quote, between quotes. -/
theorem isQuoted_iff {text : String} :
    isQuoted text = true ↔ ∃ inner : String, text = "\"" ++ inner ++ "\"" ∧ '"' ∉ inner.toList := by
  unfold isQuoted
  constructor
  · intro h
    split at h
    next rest heq =>
      rw [Bool.and_eq_true, decide_eq_true_eq, Bool.not_eq_true', List.contains_eq_mem,
        decide_eq_false_iff_not] at h
      -- the last character is a quote, and the others hold none
      have hrest := List.dropLast_append_getLast? _ h.1
      refine ⟨String.ofList rest.dropLast, ?_, by rw [String.toList_ofList]; exact h.2⟩
      rw [← String.toList_inj, toList_quotes, String.toList_ofList, hrest, heq]
    next => cases h
  · rintro ⟨inner, rfl, h⟩
    rw [toList_quotes]
    simpa using h

/-- Without a quote and a backslash in it, a text is quoted as it stands. -/
theorem quote_eq_of_not_mem {text : String} (hquote : '"' ∉ text.toList)
    (hbackslash : '\\' ∉ text.toList) : quote text = "\"" ++ text ++ "\"" := by
  have hescape : ∀ c ∈ text.toList, escapeChar c = [c] := fun c hc => by
    rw [escapeChar, if_neg (ne_of_mem_of_not_mem hc hbackslash),
      if_neg (ne_of_mem_of_not_mem hc hquote)]
  rw [quote, List.flatMap_congr hescape, List.flatMap_singleton', String.ofList_toList]

/-! ## Escapes are longer than what they denote -/

/-- An escape with digits stands for a single byte. -/
theorem length_of_numericEscape? {value length taken : Nat} {bytes : List UInt8}
    (h : numericEscape? value length = some (bytes, taken)) :
    bytes.length = 1 ∧ taken = length := by
  rw [numericEscape?] at h
  split at h
  · cases h
    exact ⟨rfl, rfl⟩
  · cases h

/-- A code point takes at most four bytes, and its escape has a letter and four digits or more. -/
theorem length_le_of_universalEscape? {length taken : Nat} {chars : List Char} {bytes : List UInt8}
    (hlength : 3 ≤ length) (h : universalEscape? length chars = some (bytes, taken)) :
    bytes.length ≤ taken ∧ taken ≤ chars.length + 1 := by
  rw [universalEscape?] at h
  split at h
  next hdigits =>
    cases h
    rw [List.length_take] at hdigits
    have := String.length_utf8EncodeChar (Char.ofNat (hexValue (chars.take length)))
    have := Char.utf8Size_le_four (Char.ofNat (hexValue (chars.take length)))
    omega
  next => cases h

/-- An escape has at least as many characters behind its backslash as it denotes bytes. -/
theorem length_le_of_escape? {chars : List Char} {bytes : List UInt8} {length : Nat}
    (h : escape? chars = some (bytes, length)) :
    bytes.length ≤ length ∧ length ≤ chars.length := by
  unfold escape? at h
  split at h
  · cases h
  next rest =>
    -- a byte in hexadecimal digits, of which there may be many
    have hle := (List.takeWhile_prefix (l := rest) isHexDigit).length_le
    dsimp only at h
    split at h
    · cases h
    · obtain ⟨hbytes, rfl⟩ := length_of_numericEscape? h
      rw [List.length_cons]
      omega
  · exact length_le_of_universalEscape? (by decide) h
  · exact length_le_of_universalEscape? (by decide) h
  next c rest _ _ _ =>
    -- a byte in octal digits, or an escape of one character
    have hle := (List.takeWhile_prefix (l := c :: rest) isOctalDigit).length_le
    dsimp only at h
    split at h
    next =>
      obtain ⟨byte, -, hbyte⟩ := Option.map_eq_some_iff.1 h
      cases hbyte
      simp
    next hempty =>
      obtain ⟨hbytes, rfl⟩ := length_of_numericEscape? h
      have hpos := List.length_pos_iff.2 (mt List.isEmpty_iff.2 hempty)
      rw [List.length_take] at hpos ⊢
      omega

/-- Every character takes at least one byte. -/
theorem length_le_length_flatMap_utf8EncodeChar (chars : List Char) :
    chars.length ≤ (chars.flatMap String.utf8EncodeChar).length := by
  induction chars with
  | nil => exact Nat.le_refl _
  | cons c chars ih =>
    have := String.length_utf8EncodeChar c
    have := c.utf8Size_pos
    rw [List.flatMap_cons, List.length_append, List.length_cons]
    omega

/-- A literal denotes at most as many bytes as it has between its quotes, and fewer if there is a
backslash among them. -/
theorem exists_front_of_literalFrom {skip : Nat} {chars behind : List Char} {bytes : List UInt8}
    (h : literalFrom skip chars = some (bytes, behind)) :
    ∃ front, chars.drop skip = front ++ '"' :: behind ∧
      bytes.length ≤ (front.flatMap String.utf8EncodeChar).length ∧
      ('\\' ∈ front → bytes.length < (front.flatMap String.utf8EncodeChar).length) := by
  induction chars generalizing skip bytes with
  | nil => cases skip <;> cases h
  | cons c chars ih =>
    cases skip with
    | succ skip => exact ih h
    | zero =>
      rw [literalFrom] at h
      split at h
      next hquote =>
        -- the literal ends here
        cases h
        exact ⟨[], by rw [hquote]; rfl, Nat.le_refl _, fun hmem => by cases hmem⟩
      next hquote =>
      split at h
      · cases h
      split at h
      next hbackslash =>
        obtain ⟨⟨denoted, length⟩, hescape, hrest⟩ := Option.bind_eq_some_iff.1 h
        obtain ⟨⟨more, _⟩, hmore, hbytes⟩ := Option.map_eq_some_iff.1 hrest
        cases hbytes
        obtain ⟨front, hdrop, hle, -⟩ := ih hmore
        obtain ⟨hdenoted, hlength⟩ := length_le_of_escape? hescape
        have htake : (chars.take length).length = length := List.length_take_of_le hlength
        have htaken := length_le_length_flatMap_utf8EncodeChar (chars.take length)
        refine ⟨c :: (chars.take length ++ front), ?_, ?_⟩
        · rw [List.drop_zero, List.cons_append, List.append_assoc, ← hdrop, List.take_append_drop]
        · -- the backslash itself is what makes the escape longer
          have := String.length_utf8EncodeChar c
          have := c.utf8Size_pos
          rw [List.flatMap_cons, List.flatMap_append, List.length_append, List.length_append,
            List.length_append]
          omega
      next hbackslash =>
        -- a character that denotes itself leaves the backslashes to those behind it
        obtain ⟨⟨more, _⟩, hmore, hbytes⟩ := Option.map_eq_some_iff.1 h
        cases hbytes
        obtain ⟨front, hdrop, hle, hlt⟩ := ih hmore
        rw [List.drop_zero] at hdrop
        refine ⟨c :: front, by rw [hdrop]; rfl, ?_, fun hmem => ?_⟩
        · rw [List.flatMap_cons, List.length_append, List.length_append]
          omega
        · have := hlt ((List.mem_cons.1 hmem).resolve_left (Ne.symm hbackslash))
          rw [List.flatMap_cons, List.length_append, List.length_append]
          omega

/-- A text without a quote, between quotes, denotes itself if and only if there is no backslash in
it. -/
theorem literal?_quotes_iff {inner : String} (hquote : '"' ∉ inner.toList)
    (hlineFeed : '\n' ∉ inner.toList) :
    literal? ("\"" ++ inner ++ "\"") = some (Utf8.encode inner) ↔ '\\' ∉ inner.toList := by
  constructor
  · -- with a backslash it would denote fewer bytes than it has
    intro h hbackslash
    rw [String.append_assoc, literal?_eq_some_iff, String.toList_append] at h
    obtain ⟨front, hdrop, -, hlt⟩ := exists_front_of_literalFrom h
    obtain ⟨rfl, -⟩ := List.append_inj' hdrop rfl
    exact absurd (hlt hbackslash) (Nat.lt_irrefl _)
  · intro hbackslash
    rw [← quote_eq_of_not_mem hquote hbackslash]
    exact literal?_quote hlineFeed

end CText

/-! ## Data -/

/-- The text of the data of a line: the text between the quotes if the payload is a quoted string,
and the payload otherwise. -/
def DataItem.content (data : DataItem) : String :=
  if CText.isQuoted data.value then String.ofList data.value.toList.tail.dropLast else data.value

/-- The quotes around a payload are no part of its content. -/
theorem DataItem.content_of_eq_quotes {data : DataItem} {inner : String}
    (hvalue : data.value = "\"" ++ inner ++ "\"") (hquote : '"' ∉ inner.toList) :
    data.content = inner := by
  have hchars : data.value.toList = '"' :: (inner.toList ++ ['"']) := by
    rw [hvalue, CText.toList_quotes]
  rw [content, if_pos (CText.isQuoted_iff.2 ⟨inner, hvalue, hquote⟩), hchars, List.tail_cons,
    List.dropLast_concat, String.ofList_toList]

/-- The data of a line becomes a declaration with one literal, and the literal is a complete string
literal of C that denotes the content of the data, if and only if the payload is no quoted string
with a backslash inside. -/
theorem data_literal_iff {data : DataItem} (h : data.value.toList.all isPayloadChar = true)
    (style : Style) (name : String) (loc : Location) :
    ∃ literal : String,
      (Statement.lineNumber name (some data) loc).toC style =
          "char *" ++ CText.label data.name ++ " = " ++ literal ++ ";" ∧
        (CText.literal? literal = some (Utf8.encode data.content) ↔
          ¬∃ inner : String, data.value = "\"" ++ inner ++ "\"" ∧ '"' ∉ inner.toList ∧
            '\\' ∈ inner.toList) := by
  have hlineFeed : '\n' ∉ data.value.toList := fun hmem => by
    simpa [isPayloadChar] using List.all_eq_true.1 h _ hmem
  refine ⟨_, rfl, ?_⟩
  by_cases hquoted : CText.isQuoted data.value = true
  · -- a quoted string stands as it is
    obtain ⟨inner, hvalue, hquote⟩ := CText.isQuoted_iff.1 hquoted
    have hinner : '\n' ∉ inner.toList := fun hmem => by
      rw [hvalue, CText.toList_quotes] at hlineFeed
      exact hlineFeed (List.mem_cons_of_mem _ (List.mem_append_left _ hmem))
    rw [if_pos hquoted, DataItem.content_of_eq_quotes hvalue hquote, hvalue,
      CText.literal?_quotes_iff hquote hinner, not_iff_not]
    refine ⟨fun hbackslash => ⟨inner, rfl, hquote, hbackslash⟩, ?_⟩
    rintro ⟨other, hsame, -, hbackslash⟩
    obtain rfl : inner = other := by simpa [String.append_assoc] using hsame
    exact hbackslash
  · -- any other payload is quoted
    rw [if_neg hquoted, DataItem.content, if_neg hquoted]
    refine iff_of_true (CText.literal?_quote hlineFeed) ?_
    rintro ⟨inner, hvalue, hquote, -⟩
    exact hquoted (CText.isQuoted_iff.2 ⟨inner, hvalue, hquote⟩)

/-- A payload of several strings, in which quotes and a backslash are escaped. -/
theorem data_literal_iff_several :
    let data : DataItem := ⟨"10", "\"a\\n\",\"b\\\"", ⟨1, 4⟩⟩
    data.value.toList.all isPayloadChar = true ∧
      ∃ literal : String,
        (Statement.lineNumber "10" (some data) ⟨1, 1⟩).toC Style.standard =
            "char *" ++ CText.label data.name ++ " = " ++ literal ++ ";" ∧
          (CText.literal? literal = some (Utf8.encode data.content) ↔
            ¬∃ inner : String, data.value = "\"" ++ inner ++ "\"" ∧ '"' ∉ inner.toList ∧
              '\\' ∈ inner.toList) := by
  intro data
  have h : data.value.toList.all isPayloadChar = true := by decide
  exact ⟨h, data_literal_iff h Style.standard "10" ⟨1, 1⟩⟩

/-- A backslash before the closing quote of the data escapes it in C, where the string does not end,
and a backslash before another letter changes the string. -/
theorem data_literal_unclosed :
    (parse (Utf8.encode "10 DATA \"a\\\"")).isClean = true ∧
      programToC Style.standard (parse (Utf8.encode "10 DATA \"a\\\"")).program =
        "char *_10 = \"a\\\";\n" ∧
      CText.literal? "\"a\\\"" = none ∧
      programToC Style.standard (parse (Utf8.encode "10 DATA \"a\\nb\"")).program =
        "char *_10 = \"a\\nb\";\n" ∧
      CText.literal? "\"a\\nb\"" = some [0x61, 0x0A, 0x62] ∧
      Utf8.encode "a\\nb" = [0x61, 0x5C, 0x6E, 0x62] := by
  decide +kernel

end LineBasic
