import Mathlib.Algebra.Group.Nat.Defs
import Mathlib.Data.List.TakeWhile
import LineBasic.Proofs.Spelling.Scan

/-!
# Literals of tokens

What the literal of a token can be, by its kind: the literal of a name is a name, that of a number
is a numeral, that of a string has no quote in it, and so on (`allows_of_mem_tokenize`). This holds
for all listings, also for those with bytes that are no UTF-8 text: such bytes occur in strings,
remarks and data only, and they are read as characters outside ASCII, which delimit nothing there.
-/

namespace LineBasic

/-! ## Literals by kind -/

/-- Whether a text is a number within a line: digits, with at most one point among or after
them. -/
def isNumeral (text : String) : Bool :=
  text.toList.head?.any Char.isDigit &&
    match text.toList.dropWhile Char.isDigit with
    | [] => true
    | c :: rest => c == '.' && rest.all Char.isDigit

/-- Whether a character can stand in the payload of a data line. -/
def isPayloadChar (c : Char) : Bool :=
  c != ':' && c != '\r' && c != '\n'

/-- Whether a text is the payload of a data line. The blanks before it do not belong to it. -/
def isPayload (text : String) : Bool :=
  text.toList.head?.all (fun c => c != ' ' && c != '\t') && text.toList.all isPayloadChar

/-- Whether a token of the kind can have the literal. -/
def Token.Kind.allows (kind : Token.Kind) (literal : String) : Bool :=
  match kind with
  | .ident => isName literal
  | .num => isNumeral literal
  | .lineNo => isDigits literal
  | .str => literal.toList.all isStringChar
  | .word .data => isPayload literal
  | _ => true

/-- A number within a line is digits alone, or digits with a point among or after them. -/
theorem isDigits_or_exists_of_isNumeral {text : String} (h : isNumeral text = true) :
    isDigits text = true ∨ ∃ whole fraction : List Char,
      text.toList = whole ++ '.' :: fraction ∧ whole ≠ [] ∧
        (∀ c ∈ whole, c.isDigit = true) ∧ ∀ c ∈ fraction, c.isDigit = true := by
  rw [isNumeral, Bool.and_eq_true] at h
  obtain ⟨hhead, htail⟩ := h
  obtain ⟨c, chars, hchars, hc⟩ : ∃ c chars, text.toList = c :: chars ∧ c.isDigit = true := by
    cases htext : text.toList with
    | nil => rw [htext] at hhead; cases hhead
    | cons c chars => exact ⟨c, chars, rfl, by rwa [htext] at hhead⟩
  -- either the digits are all there is, or a point and more digits follow
  split at htail
  next hnil =>
    rw [hchars, List.dropWhile_eq_nil_iff] at hnil
    exact .inl (by simpa [isDigits, hchars] using hnil)
  next point fraction hdrop =>
    rw [Bool.and_eq_true, beq_iff_eq, List.all_eq_true] at htail
    obtain ⟨rfl, hfraction⟩ := htail
    refine .inr ⟨text.toList.takeWhile Char.isDigit, fraction, ?_, ?_,
      fun c hc => List.mem_takeWhile_imp hc, hfraction⟩
    · rw [← hdrop, List.takeWhile_append_dropWhile]
    · rw [hchars, List.takeWhile_cons_of_pos hc]
      exact List.cons_ne_nil _ _

/-! ## Characters of decoded bytes -/

namespace Utf8

/-- The code point of a character of several bytes is at least what its first bytes say. -/
theorem le_continuation {more : Nat} {low high : UInt8} {bits code : Nat} {rest : List UInt8}
    (h : (continuation more low high bits rest).1 = some code) : bits * 64 ^ more ≤ code := by
  induction more generalizing low high bits rest with
  | zero =>
    cases h
    exact Nat.le_of_eq (Nat.mul_one _)
  | succ more ih =>
    cases rest with
    | nil => cases h
    | cons b rest =>
      rw [continuation] at h
      split at h
      next =>
        -- a further byte moves what is there up by six bits, and adds to it
        have hle := ih h
        calc bits * 64 ^ (more + 1) = bits * 64 * 64 ^ more := by
              rw [Nat.pow_succ, Nat.mul_comm (64 ^ more), Nat.mul_assoc]
          _ ≤ (bits * 64 + (b.toNat - 0x80)) * 64 ^ more :=
            Nat.mul_le_mul_right _ (Nat.le_add_right _ _)
          _ ≤ code := hle
      next => cases h

/-- Further bytes leave the bits read so far in front. -/
theorem le_continuation_succ {more : Nat} {low high : UInt8} {bits code : Nat}
    {rest : List UInt8} (h : (continuation (more + 1) low high bits rest).1 = some code) :
    (bits * 64 + (low.toNat - 0x80)) * 64 ^ more ≤ code := by
  cases rest with
  | nil => cases h
  | cons b rest =>
    rw [continuation] at h
    split at h
    next hbounds =>
      have hlow := UInt8.le_iff_toNat_le.1 hbounds.1
      refine Nat.le_trans (Nat.mul_le_mul_right _ ?_) (le_continuation h)
      omega
    next => cases h

/-- The bounds on the second byte make up for lead bytes without bits of their own. -/
theorem exists_more_of_lead? {b : UInt8} {lead : Lead} (h : lead? b = some lead) :
    ∃ more, lead.more = more + 1 ∧
      0x80 ≤ (lead.bits * 64 + (lead.low.toNat - 0x80)) * 64 ^ more := by
  unfold lead? at h
  simp only [UInt8.le_iff_toNat_le, UInt8.reduceToNat] at h
  split_ifs at h <;> cases h
  · exact ⟨0, rfl, by simp; omega⟩
  · exact ⟨1, rfl, by decide⟩
  · exact ⟨1, rfl, by decide⟩
  · exact ⟨1, rfl, by simp; omega⟩
  · exact ⟨2, rfl, by decide⟩
  · exact ⟨2, rfl, by simp; omega⟩
  · exact ⟨2, rfl, by decide⟩

/-- A character of several bytes is outside ASCII. -/
theorem le_of_lead? {b : UInt8} {lead : Lead} (h : lead? b = some lead) {code : Nat}
    {rest : List UInt8}
    (hcode : (continuation lead.more lead.low lead.high lead.bits rest).1 = some code) :
    0x80 ≤ code := by
  obtain ⟨more, hmore, hle⟩ := exists_more_of_lead? h
  rw [hmore] at hcode
  exact Nat.le_trans hle (le_continuation_succ hcode)

theorem toNat_ofUInt8 (b : UInt8) : (Char.ofUInt8 b).val.toNat = b.toNat :=
  UInt8.toNat_toUInt32 b

theorem ofUInt8_inj {b b' : UInt8} (h : Char.ofUInt8 b = Char.ofUInt8 b') : b = b' := by
  rw [← UInt8.toNat_inj, ← toNat_ofUInt8, h, toNat_ofUInt8]

/-- The number of a code point is that of the character, unless there is no such character. -/
theorem toNat_ofNat_of_ne_zero {code : Nat} (h : (Char.ofNat code).val.toNat ≠ 0) :
    (Char.ofNat code).val.toNat = code := by
  by_cases hvalid : code.isValidChar
  · rw [Char.ofNat, dif_pos hvalid]
    rfl
  · rw [Char.ofNat, dif_neg hvalid] at h
    exact absurd rfl h

/-- A character that is read is one of the bytes, or it is outside ASCII or null. -/
theorem byte_of_unit {b : UInt8} {rest : List UInt8} {c : Char}
    (h : (unit b rest).1.getD '\uFFFD' = c)
    (hpos : 0 < c.val.toNat) (hascii : c.val.toNat < 0x80) : c = Char.ofUInt8 b := by
  unfold unit at h
  split at h
  next => exact h.symm
  next =>
    -- the replacement character is outside ASCII, and so is a character of several bytes
    split at h
    next =>
      subst h
      exact absurd hascii (by decide)
    next lead hlead =>
      dsimp only at h
      cases hcode : (continuation lead.more lead.low lead.high lead.bits rest).1 with
      | none =>
        rw [hcode] at h
        subst h
        exact absurd hascii (by decide)
      | some code =>
        rw [hcode] at h
        subst h
        have hle := le_of_lead? hlead hcode
        have hnat : (Char.ofNat code).val.toNat = code :=
          toNat_ofNat_of_ne_zero (Nat.ne_of_gt hpos)
        change (Char.ofNat code).val.toNat < 0x80 at hascii
        omega

/-- An ASCII character of the decoded text is one of the bytes. -/
theorem mem_of_mem_unitsFrom {skip : Nat} {bytes : List UInt8} {c : Char}
    (h : c ∈ (unitsFrom skip bytes).map (·.getD '\uFFFD')) (hpos : 0 < c.val.toNat)
    (hascii : c.val.toNat < 0x80) : ∃ b ∈ bytes, c = Char.ofUInt8 b := by
  fun_induction unitsFrom skip bytes with
  | case1 => cases h
  | case2 skip b rest ih =>
    obtain ⟨b', hb', hc⟩ := ih h
    exact ⟨b', List.mem_cons_of_mem _ hb', hc⟩
  | case3 b rest ih =>
    rw [List.map_cons, List.mem_cons] at h
    rcases h with h | h
    · exact ⟨b, List.mem_cons_self, byte_of_unit h.symm hpos hascii⟩
    · obtain ⟨b', hb', hc⟩ := ih h
      exact ⟨b', List.mem_cons_of_mem _ hb', hc⟩

/-- An ASCII character of the text, other than null, is one of the bytes. -/
theorem exists_byte_of_mem_decodeLossy {bytes : List UInt8} {c : Char}
    (h : c ∈ (decodeLossy bytes).toList) (hpos : 0 < c.val.toNat) (hascii : c.val.toNat < 0x80) :
    ∃ b ∈ bytes, c = Char.ofUInt8 b := by
  rw [decodeLossy, String.toList_ofList] at h
  exact mem_of_mem_unitsFrom h hpos hascii

/-- A character that no byte is does not occur. -/
theorem not_mem_decodeLossy {bytes : List UInt8} {code : UInt8} (h : code ∉ bytes)
    (hpos : 0 < code.toNat) (hascii : code.toNat < 0x80) :
    Char.ofUInt8 code ∉ (decodeLossy bytes).toList := by
  intro hmem
  rw [← toNat_ofUInt8] at hpos hascii
  obtain ⟨b, hb, hcode⟩ := exists_byte_of_mem_decodeLossy hmem hpos hascii
  exact h (ofUInt8_inj hcode ▸ hb)

/-- Bytes in ASCII are read one by one. -/
theorem toList_decodeLossy_ascii {bytes : List UInt8} (h : ∀ b ∈ bytes, b < 0x80) :
    (decodeLossy bytes).toList = bytes.map Char.ofUInt8 := by
  rw [decodeLossy, String.toList_ofList, units]
  induction bytes with
  | nil => rfl
  | cons b bytes ih =>
    rw [List.forall_mem_cons] at h
    have hunit : unit b bytes = (some (Char.ofUInt8 b), 0) := if_pos h.1
    rw [unitsFrom, hunit, List.map_cons, List.map_cons, ih h.2]
    rfl

/-- The first character of a text that starts with an ASCII character is its first byte. -/
theorem head?_decodeLossy {b : UInt8} {bytes : List UInt8} {c : Char}
    (h : (decodeLossy (b :: bytes)).toList.head? = some c) (hpos : 0 < c.val.toNat)
    (hascii : c.val.toNat < 0x80) : c = Char.ofUInt8 b := by
  rw [decodeLossy, String.toList_ofList, units, unitsFrom, List.map_cons, List.head?_cons,
    Option.some.injEq] at h
  exact byte_of_unit h hpos hascii

end Utf8

/-! ## Classes of bytes and of characters -/

namespace Byte

variable {b : UInt8}

/-- A byte that is a digit is so as a character, and is ASCII. -/
theorem isDigit_ofUInt8 (h : isDigit b = true) :
    (Char.ofUInt8 b).isDigit = true ∧ b < 0x80 := by
  simp only [isDigit, Bool.and_eq_true, decide_eq_true_eq, UInt8.le_iff_toNat_le,
    UInt8.reduceToNat] at h
  refine ⟨?_, UInt8.lt_iff_toNat_lt.2 ?_⟩
  · simp only [Char.isDigit, Bool.and_eq_true, decide_eq_true_eq, UInt32.le_iff_toNat_le,
      Utf8.toNat_ofUInt8]
    exact h
  · simp only [UInt8.reduceToNat]
    omega

/-- A byte that is a letter is so as a character, and is ASCII. -/
theorem isLetter_ofUInt8 (h : isLetter b = true) :
    (Char.ofUInt8 b).isAlpha = true ∧ b < 0x80 := by
  simp only [isLetter, Bool.or_eq_true, Bool.and_eq_true, decide_eq_true_eq,
    UInt8.le_iff_toNat_le, UInt8.reduceToNat] at h
  refine ⟨?_, UInt8.lt_iff_toNat_lt.2 ?_⟩
  · change (decide (65 ≤ (Char.ofUInt8 b).val ∧ (Char.ofUInt8 b).val ≤ 90) ||
      (decide (97 ≤ (Char.ofUInt8 b).val) && decide ((Char.ofUInt8 b).val ≤ 122))) = true
    simp only [Bool.or_eq_true, Bool.and_eq_true, decide_eq_true_eq, UInt32.le_iff_toNat_le,
      Utf8.toNat_ofUInt8]
    exact h
  · simp only [UInt8.reduceToNat]
    omega

/-- A byte that may be in a word is so as a character, and is ASCII. -/
theorem isWord_ofUInt8 (h : isWord b = true) :
    (Char.ofUInt8 b).isAlphanum = true ∧ b < 0x80 := by
  rw [isWord, Bool.or_eq_true] at h
  rcases h with h | h
  · obtain ⟨halpha, hascii⟩ := isLetter_ofUInt8 h
    exact ⟨by rw [Char.isAlphanum, halpha, Bool.true_or], hascii⟩
  · obtain ⟨hdigit, hascii⟩ := isDigit_ofUInt8 h
    exact ⟨by rw [Char.isAlphanum, hdigit, Bool.or_true], hascii⟩

end Byte

/-! ## Literals of lexemes -/

namespace Lexeme

theorem mem_takeWhile {p : UInt8 → Bool} {bytes : List UInt8} {b : UInt8}
    (h : b ∈ bytes.takeWhile p) : p b = true :=
  List.all_eq_true.1 List.all_takeWhile b h

/-- The characters of a run of digits. -/
theorem digits_takeWhile (bytes : List UInt8) :
    (∀ b ∈ bytes.takeWhile Byte.isDigit, b < 0x80) ∧
      ∀ c ∈ (bytes.takeWhile Byte.isDigit).map Char.ofUInt8, c.isDigit = true := by
  refine ⟨fun b hb => (Byte.isDigit_ofUInt8 (mem_takeWhile hb)).2, fun c hc => ?_⟩
  obtain ⟨b, hb, rfl⟩ := List.mem_map.1 hc
  exact (Byte.isDigit_ofUInt8 (mem_takeWhile hb)).1

/-- A run of digits is decoded as one. -/
theorem isDigits_takeWhile {b : UInt8} {rest : List UInt8} (h : Byte.isDigit b = true) :
    isDigits (Utf8.decodeLossy ((b :: rest).takeWhile Byte.isDigit)) = true := by
  obtain ⟨hascii, hdigits⟩ := digits_takeWhile (b :: rest)
  rw [isDigits, Utf8.toList_decodeLossy_ascii hascii, Bool.and_eq_true, List.all_eq_true]
  exact ⟨by simp [h], hdigits⟩

/-- The bytes of a number are decoded as a numeral, with a point or without. -/
theorem isNumeral_numberBytes {b : UInt8} {rest : List UInt8} (h : Byte.isDigit b = true) :
    isNumeral (Utf8.decodeLossy (numberBytes (b :: rest))) = true := by
  obtain ⟨hascii, hdigits⟩ := digits_takeWhile (b :: rest)
  have hhead : ((b :: rest).takeWhile Byte.isDigit).head? = some b := by simp [h]
  have hfirst := (Byte.isDigit_ofUInt8 h).1
  unfold numberBytes
  split
  next tail _ =>
    -- a point, and digits on both sides of it
    obtain ⟨hascii', hdigits'⟩ := digits_takeWhile tail
    have hall : ∀ byte ∈ (b :: rest).takeWhile Byte.isDigit ++ 0x2E :: tail.takeWhile Byte.isDigit,
        byte < 0x80 := by
      rw [List.forall_mem_append, List.forall_mem_cons]
      exact ⟨hascii, by decide, hascii'⟩
    rw [isNumeral, Utf8.toList_decodeLossy_ascii hall, List.map_append,
      List.dropWhile_append_of_pos hdigits, List.map_cons]
    simp only [List.head?_append, List.head?_map, hhead, Option.map_some, Option.some_or,
      Option.any_some, hfirst, Bool.true_and]
    rw [List.dropWhile_cons_of_neg (by decide)]
    exact List.all_eq_true.2 hdigits'
  next =>
    rw [isNumeral, Utf8.toList_decodeLossy_ascii hascii,
      List.dropWhile_eq_nil_iff.2 hdigits, List.head?_map, hhead]
    simp [hfirst]

/-- The bytes of a word are decoded as the text of a word. -/
theorem isWordText_wordBytes {b : UInt8} {rest : List UInt8} (h : Byte.isLetter b = true) :
    isWordText (Utf8.decodeLossy (wordBytes (b :: rest))).toList = true := by
  have hword : Byte.isWord b = true := by rw [Byte.isWord, h, Bool.true_or]
  -- the word without the dollar sign that may follow it
  obtain ⟨mark, hmark, hbytes⟩ : ∃ mark : List UInt8, (mark = [] ∨ mark = [0x24]) ∧
      wordBytes (b :: rest) = b :: (rest.takeWhile Byte.isWord ++ mark) := by
    unfold wordBytes
    split
    · exact ⟨[0x24], .inr rfl, by simp [hword]⟩
    · exact ⟨[], .inl rfl, by simp [hword]⟩
  have hascii : ∀ byte ∈ b :: (rest.takeWhile Byte.isWord ++ mark), byte < 0x80 := by
    rw [List.forall_mem_cons, List.forall_mem_append]
    refine ⟨(Byte.isLetter_ofUInt8 h).2, fun b hb => (Byte.isWord_ofUInt8 (mem_takeWhile hb)).2, ?_⟩
    rcases hmark with rfl | rfl
    · simp
    · exact List.forall_mem_singleton.2 (by decide)
  have htail : ∀ c ∈ (rest.takeWhile Byte.isWord).map Char.ofUInt8, c.isAlphanum = true := by
    intro c hc
    obtain ⟨b, hb, rfl⟩ := List.mem_map.1 hc
    exact (Byte.isWord_ofUInt8 (mem_takeWhile hb)).1
  rw [hbytes, Utf8.toList_decodeLossy_ascii hascii, List.map_cons, List.map_append, isWordText,
    (Byte.isLetter_ofUInt8 h).1, List.dropWhile_append_of_pos htail]
  rcases hmark with rfl | rfl <;> decide

/-- The text of a run that leaves out some ASCII characters. -/
theorem all_decodeLossy_takeWhile {p : UInt8 → Bool} {q : Char → Bool} (codes : List UInt8)
    (hq : ∀ c, q c = false → ∃ code ∈ codes, c = Char.ofUInt8 code)
    (hcodes : codes.all (fun code => 0 < code && code < 0x80 && !p code) = true)
    (bytes : List UInt8) : (Utf8.decodeLossy (bytes.takeWhile p)).toList.all q = true := by
  rw [List.all_eq_true]
  intro c hc
  -- a character that is left out would be one of the bytes of the run
  by_contra hfalse
  obtain ⟨code, hcode, rfl⟩ := hq c (Bool.not_eq_true _ ▸ hfalse)
  have hbounds := List.all_eq_true.1 hcodes code hcode
  simp only [Bool.and_eq_true, decide_eq_true_eq, Bool.not_eq_true', UInt8.lt_iff_toNat_lt,
    UInt8.reduceToNat] at hbounds
  obtain ⟨⟨hpos, hascii⟩, hcode⟩ := hbounds
  refine Utf8.not_mem_decodeLossy (fun hmem => ?_) hpos hascii hc
  rw [mem_takeWhile hmem] at hcode
  cases hcode

/-- A payload has no blank in front, and no colon or line break in it. -/
theorem isPayload_decodeLossy (rest : List UInt8) :
    isPayload (Utf8.decodeLossy
      ((rest.dropWhile Byte.isBlank).takeWhile Byte.isPayload)) = true := by
  rw [isPayload, Bool.and_eq_true]
  constructor
  · -- the first byte is no blank, and a blank would be the first byte
    have hblank : ∀ b ∈ (rest.dropWhile Byte.isBlank).head?, Byte.isBlank b = false :=
      fun _ => eq_false_of_mem_head?_dropWhile
    cases hdrop : rest.dropWhile Byte.isBlank with
    | nil => rfl
    | cons b bytes =>
      have hb : Byte.isBlank b = false := hblank b (by rw [hdrop]; rfl)
      rw [List.takeWhile_cons]
      split
      next =>
        rw [Option.all_eq_true]
        intro c hc
        by_contra hfalse
        simp only [Bool.and_eq_true, bne_iff_ne, ne_eq, not_and_or, not_not] at hfalse
        rcases hfalse with rfl | rfl
        · have hcode := Utf8.head?_decodeLossy hc (by decide) (by decide)
          rw [← Utf8.ofUInt8_inj (show Char.ofUInt8 0x20 = _ from hcode)] at hb
          cases hb
        · have hcode := Utf8.head?_decodeLossy hc (by decide) (by decide)
          rw [← Utf8.ofUInt8_inj (show Char.ofUInt8 0x09 = _ from hcode)] at hb
          cases hb
      next => rfl
  · -- neither a colon nor a line break is part of a payload
    refine all_decodeLossy_takeWhile [0x3A, 0x0D, 0x0A] (fun c hc => ?_) (by decide) _
    simp only [isPayloadChar, Bool.and_eq_false_iff, bne_eq_false_iff_eq] at hc
    rcases hc with (rfl | rfl) | rfl
    · exact ⟨0x3A, by decide, rfl⟩
    · exact ⟨0x0D, by decide, rfl⟩
    · exact ⟨0x0A, by decide, rfl⟩

/-- A string has no quote and no line break in it. -/
theorem all_isStringChar_takeWhile (rest : List UInt8) :
    (Utf8.decodeLossy (rest.takeWhile Byte.isString)).toList.all isStringChar = true := by
  refine all_decodeLossy_takeWhile [0x22, 0x0D, 0x0A] (fun c hc => ?_) (by decide) _
  simp only [isStringChar, Bool.and_eq_false_iff, bne_eq_false_iff_eq] at hc
  rcases hc with (rfl | rfl) | rfl
  · exact ⟨0x22, by decide, rfl⟩
  · exact ⟨0x0D, by decide, rfl⟩
  · exact ⟨0x0A, by decide, rfl⟩

/-- The literal of a lexeme is one that its kind allows. -/
theorem allows_first? {opensLine : Bool} {bytes : List UInt8} {lexeme : Lexeme}
    (h : first? opensLine bytes = some lexeme) : lexeme.kind.allows lexeme.literal = true := by
  cases front_of_first? h with
  | str => exact all_isStringChar_takeWhile _
  | payload _ hkeyword =>
    -- a remark may hold anything, data only what ends neither the statement nor the line
    rcases hkeyword with rfl | rfl
    · rfl
    · exact isPayload_decodeLossy _
  | @reserved _ _ keyword _ hkeyword =>
    cases keyword <;> first | rfl | exact absurd (.inr rfl) hkeyword
  | name hletter hname =>
    change isName _ = true
    rw [isName, isWordText_wordBytes hletter, hname]
    rfl
  | lineNo hdigit => exact isDigits_takeWhile hdigit
  | num hdigit => exact isNumeral_numberBytes hdigit
  | _ => rfl

end Lexeme

/-! ## Literals of listings -/

/-- Each token of a stream has a literal that its kind allows. -/
theorem Stream.allows_of_mem_tokens (stream : Stream) :
    ∀ token ∈ stream.tokens, token.kind.allows token.literal = true := by
  -- the end token has an empty literal, and that of any other token comes from its lexeme
  have hnext (stream : Stream) :
      stream.next.token.kind.allows stream.next.token.literal = true := by
    unfold next
    dsimp only
    split
    next => rfl
    next lexeme hlexeme => exact Lexeme.allows_first? hlexeme
  induction stream using Stream.induction with
  | last stream hend =>
    rw [tokens_of_eof hend]
    exact List.forall_mem_singleton.2 (hnext stream)
  | step stream hend ih =>
    rw [tokens_of_ne_eof hend]
    exact List.forall_mem_cons.2 ⟨hnext stream, ih⟩

/-- The literal of every token of a listing is one that its kind allows. -/
theorem allows_of_mem_tokenize (bytes : List UInt8) :
    ∀ token ∈ tokenize bytes, token.kind.allows token.literal = true :=
  Stream.allows_of_mem_tokens _

end LineBasic
