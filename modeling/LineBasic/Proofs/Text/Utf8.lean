import Mathlib.Tactic.Common
import LineBasic.Text.Utf8

/-!
# Reading UTF-8 back

The bytes of a text are read back as that text (`decodeLossy_encode`). The bytes of a character
are put in terms of its code point, so that each of the four lengths is a matter of arithmetic.

A byte below 0x80 belongs to no other character, so bytes can be read in two parts around it
(`units_append_ascii`).
-/

namespace LineBasic.Utf8

/-! ## One character -/

/-- The reading of bytes that continue a character, in terms of their values. -/
theorem continuation_cons {more : Nat} {low high : UInt8} {bits n : Nat} (rest : List UInt8)
    (hn : n < 256) (hlow : low.toNat ≤ n) (hhigh : n ≤ high.toNat) :
    continuation (more + 1) low high bits (UInt8.ofNat n :: rest) =
      ((continuation more 0x80 0xBF (bits * 64 + (n - 0x80)) rest).1,
        (continuation more 0x80 0xBF (bits * 64 + (n - 0x80)) rest).2 + 1) := by
  have hbounds : low ≤ UInt8.ofNat n ∧ UInt8.ofNat n ≤ high := by
    rw [UInt8.le_iff_toNat_le, UInt8.le_iff_toNat_le, UInt8.toNat_ofNat_of_lt' hn]
    exact ⟨hlow, hhigh⟩
  rw [continuation, if_pos hbounds, UInt8.toNat_ofNat_of_lt' hn]

/-- The lead byte of a sequence of two. -/
theorem lead?_two {n : Nat} (hlow : 0xC2 ≤ n) (hhigh : n ≤ 0xDF) :
    lead? (UInt8.ofNat n) = some ⟨1, 0x80, 0xBF, n - 0xC0⟩ := by
  have hn := UInt8.toNat_ofNat_of_lt' (show n < 256 by omega)
  simp only [lead?, UInt8.le_iff_toNat_le, ← UInt8.toNat_inj, hn, UInt8.reduceToNat]
  rw [if_pos ⟨hlow, hhigh⟩]

/-- The lead byte of a sequence of three, which bounds the second byte at both ends of its range. -/
theorem lead?_three {n : Nat} (hlow : 0xE0 ≤ n) (hhigh : n ≤ 0xEF) :
    lead? (UInt8.ofNat n) =
      some ⟨2, if n = 0xE0 then 0xA0 else 0x80, if n = 0xED then 0x9F else 0xBF, n - 0xE0⟩ := by
  have hn := UInt8.toNat_ofNat_of_lt' (show n < 256 by omega)
  simp only [lead?, UInt8.le_iff_toNat_le, ← UInt8.toNat_inj, hn, UInt8.reduceToNat]
  -- the first and one other lead byte narrow down the byte after them
  rw [if_neg (by omega)]
  by_cases hfirst : n = 0xE0
  · simp [hfirst]
  by_cases hsurrogate : n = 0xED
  · simp [hsurrogate]
  · simp only [hfirst, hsurrogate, if_false]
    rw [if_pos (by omega)]

/-- The lead byte of a sequence of four, which bounds the second byte at both ends of its range. -/
theorem lead?_four {n : Nat} (hlow : 0xF0 ≤ n) (hhigh : n ≤ 0xF4) :
    lead? (UInt8.ofNat n) =
      some ⟨3, if n = 0xF0 then 0x90 else 0x80, if n = 0xF4 then 0x8F else 0xBF, n - 0xF0⟩ := by
  have hn := UInt8.toNat_ofNat_of_lt' (show n < 256 by omega)
  simp only [lead?, UInt8.le_iff_toNat_le, ← UInt8.toNat_inj, hn, UInt8.reduceToNat]
  rw [if_neg (by omega), if_neg (by omega), if_neg (by omega), if_neg (by omega)]
  by_cases hfirst : n = 0xF0
  · simp [hfirst]
  by_cases hlast : n = 0xF4
  · simp [hlast]
  · simp only [hfirst, hlast, if_false]
    rw [if_pos (by omega)]

/-- A byte outside ASCII starts the character that it announces. -/
theorem unit_of_lead {n : Nat} {lead : Lead} (rest : List UInt8) (hlow : 0x80 ≤ n) (hn : n < 256)
    (hlead : lead? (UInt8.ofNat n) = some lead) :
    unit (UInt8.ofNat n) rest =
      ((continuation lead.more lead.low lead.high lead.bits rest).1.map Char.ofNat,
        (continuation lead.more lead.low lead.high lead.bits rest).2) := by
  have hascii : ¬UInt8.ofNat n < 0x80 := by
    rw [UInt8.lt_iff_toNat_lt, UInt8.toNat_ofNat_of_lt' hn]
    exact Nat.not_lt.2 hlow
  rw [unit, if_neg hascii, hlead]

/-- A byte is the character of its value. -/
theorem ofUInt8_ofNat {v : Nat} (h : v < 256) : Char.ofUInt8 (UInt8.ofNat v) = Char.ofNat v := by
  have hvalid : v.isValidChar := .inl (by omega)
  apply Char.ext
  apply UInt32.toNat_inj.1
  change (UInt8.ofNat v).toUInt32.toNat = _
  rw [UInt8.toNat_toUInt32, UInt8.toNat_ofNat_of_lt' h, Char.ofNat, dif_pos hvalid]
  rfl

/-- One byte holds seven bits of the code point. -/
theorem unit_one {v : Nat} (h : v ≤ 0x7F) (rest : List UInt8) :
    unit (UInt8.ofNat v) rest = (some (Char.ofNat v), 0) := by
  have hascii : UInt8.ofNat v < 0x80 := by
    rw [UInt8.lt_iff_toNat_lt, UInt8.toNat_ofNat_of_lt' (show _ < 256 by omega)]
    exact Nat.lt_succ_of_le h
  rw [unit, if_pos hascii, ofUInt8_ofNat (by omega)]

/-- Two bytes hold eleven bits of the code point. -/
theorem unit_two {v : Nat} (hlow : 0x80 ≤ v) (hhigh : v ≤ 0x7FF) (rest : List UInt8) :
    unit (UInt8.ofNat (v / 64 % 0x20 + 0xC0)) (UInt8.ofNat (v % 0x40 + 0x80) :: rest) =
      (some (Char.ofNat v), 1) := by
  -- five and six bits, put together again
  have hcode : (v / 64 % 0x20 + 0xC0 - 0xC0) * 64 + (v % 0x40 + 0x80 - 0x80) = v := by omega
  rw [unit_of_lead _ (by omega) (by omega) (lead?_two (by omega) (by omega)),
    continuation_cons _ (by omega) (by simp) (by simp; omega)]
  simp only [continuation, hcode, Option.map_some, Nat.zero_add]

/-- Three bytes hold sixteen bits of the code point, which is no surrogate. -/
theorem unit_three {v : Nat} (hlow : 0x800 ≤ v) (hhigh : v ≤ 0xFFFF)
    (hvalid : v < 0xD800 ∨ 0xDFFF < v) (rest : List UInt8) :
    unit (UInt8.ofNat (v / 4096 % 0x10 + 0xE0))
        (UInt8.ofNat (v / 64 % 0x40 + 0x80) :: UInt8.ofNat (v % 0x40 + 0x80) :: rest) =
      (some (Char.ofNat v), 2) := by
  have hcode : ((v / 4096 % 0x10 + 0xE0 - 0xE0) * 64 + (v / 64 % 0x40 + 0x80 - 0x80)) * 64 +
      (v % 0x40 + 0x80 - 0x80) = v := by omega
  -- an overlong form would have a smaller second byte, a surrogate a greater one
  have hsecond : (if v / 4096 % 0x10 + 0xE0 = 0xE0 then 0xA0 else 0x80 : UInt8).toNat ≤
      v / 64 % 0x40 + 0x80 := by
    split
    · simp only [UInt8.reduceToNat]
      omega
    · simp only [UInt8.reduceToNat]
      omega
  have hsecond' : v / 64 % 0x40 + 0x80 ≤
      (if v / 4096 % 0x10 + 0xE0 = 0xED then 0x9F else 0xBF : UInt8).toNat := by
    split
    · simp only [UInt8.reduceToNat]
      omega
    · simp only [UInt8.reduceToNat]
      omega
  rw [unit_of_lead _ (by omega) (by omega) (lead?_three (by omega) (by omega)),
    continuation_cons _ (by omega) hsecond hsecond',
    continuation_cons _ (by omega) (by simp) (by simp; omega)]
  simp only [continuation, hcode, Option.map_some, Nat.zero_add]

/-- Four bytes hold the rest of the code points. -/
theorem unit_four {v : Nat} (hlow : 0x10000 ≤ v) (hhigh : v < 0x110000) (rest : List UInt8) :
    unit (UInt8.ofNat (v / 262144 % 0x08 + 0xF0))
        (UInt8.ofNat (v / 4096 % 0x40 + 0x80) :: UInt8.ofNat (v / 64 % 0x40 + 0x80) ::
          UInt8.ofNat (v % 0x40 + 0x80) :: rest) =
      (some (Char.ofNat v), 3) := by
  have hcode : (((v / 262144 % 0x08 + 0xF0 - 0xF0) * 64 + (v / 4096 % 0x40 + 0x80 - 0x80)) * 64 +
      (v / 64 % 0x40 + 0x80 - 0x80)) * 64 + (v % 0x40 + 0x80 - 0x80) = v := by omega
  -- an overlong form would have a smaller second byte, a code point out of range a greater one
  have hsecond : (if v / 262144 % 0x08 + 0xF0 = 0xF0 then 0x90 else 0x80 : UInt8).toNat ≤
      v / 4096 % 0x40 + 0x80 := by
    split
    · simp only [UInt8.reduceToNat]
      omega
    · simp only [UInt8.reduceToNat]
      omega
  have hsecond' : v / 4096 % 0x40 + 0x80 ≤
      (if v / 262144 % 0x08 + 0xF0 = 0xF4 then 0x8F else 0xBF : UInt8).toNat := by
    split
    · simp only [UInt8.reduceToNat]
      omega
    · simp only [UInt8.reduceToNat]
      omega
  rw [unit_of_lead _ (by omega) (by omega) (lead?_four (by omega) (by omega)),
    continuation_cons _ (by omega) hsecond hsecond',
    continuation_cons _ (by omega) (by simp) (by simp; omega),
    continuation_cons _ (by omega) (by simp) (by simp; omega)]
  simp only [continuation, hcode, Option.map_some, Nat.zero_add]

/-- The bytes of a character are read as the character. -/
theorem exists_unit_utf8EncodeChar (c : Char) :
    ∃ b more, String.utf8EncodeChar c = b :: more ∧
      ∀ rest, unit b (more ++ rest) = (some c, more.length) := by
  have hvalid : c.val.toNat < 0xD800 ∨ 0xDFFF < c.val.toNat ∧ c.val.toNat < 0x110000 := c.valid
  have hchar : Char.ofNat c.val.toNat = c := Char.ofNat_toNat c
  -- from here on the character is its code point, and each length a range of it
  generalize hv : c.val.toNat = v at hvalid hchar
  unfold String.utf8EncodeChar
  simp only [hv]
  rw [← hchar]
  split
  next hone => exact ⟨_, [], rfl, unit_one hone⟩
  next hone =>
    split
    next htwo => exact ⟨_, _, rfl, unit_two (by omega) htwo⟩
    next htwo =>
      split
      next hthree => exact ⟨_, _, rfl, unit_three (by omega) hthree (by omega)⟩
      next hthree => exact ⟨_, _, rfl, unit_four (by omega) (by omega)⟩

/-! ## Texts -/

/-- Bytes that belong to the unit before are passed over. -/
theorem unitsFrom_append {skip : Nat} {taken : List UInt8} (h : taken.length = skip)
    (rest : List UInt8) : unitsFrom skip (taken ++ rest) = unitsFrom 0 rest := by
  -- the bytes taken by a character are counted down one by one
  induction taken generalizing skip with
  | nil =>
    subst h
    rfl
  | cons b taken ih =>
    subst h
    exact ih rfl

/-- An encoded character is one unit, whatever comes next. -/
theorem units_utf8EncodeChar_append (c : Char) (rest : List UInt8) :
    units (String.utf8EncodeChar c ++ rest) = some c :: units rest := by
  obtain ⟨b, more, hbytes, hunit⟩ := exists_unit_utf8EncodeChar c
  rw [hbytes, List.cons_append, units, unitsFrom, hunit, unitsFrom_append rfl, units]

/-- Encoded text has one unit for each character, and none is broken. -/
theorem units_encode (text : String) : units (encode text) = text.toList.map some := by
  unfold encode
  induction text.toList with
  | nil => rfl
  | cons c chars ih => rw [List.flatMap_cons, units_utf8EncodeChar_append, ih, List.map_cons]

/-- A text is read back from its bytes. -/
theorem decodeLossy_encode (text : String) : decodeLossy (encode text) = text := by
  rw [decodeLossy, units_encode, List.map_map]
  have hid : ((·.getD '\uFFFD') ∘ some : Char → Char) = id := rfl
  rw [hid, List.map_id, String.ofList_toList]

/-! ## Bytes that are characters by themselves -/

/-- No byte below 0x80 comes second in a character. -/
theorem low_of_lead? {c : UInt8} {lead : Lead} (h : lead? c = some lead) : 0x80 ≤ lead.low := by
  unfold lead? at h
  repeat' split at h
  all_goals cases h
  all_goals
    first
    | exact UInt8.le_refl _
    | decide

/-- A character takes no more bytes than there are. -/
theorem continuation_snd_le (more : Nat) (low high : UInt8) (bits : Nat) (rest : List UInt8) :
    (continuation more low high bits rest).2 ≤ rest.length := by
  induction rest generalizing more low high bits with
  | nil => cases more <;> exact Nat.le_refl 0
  | cons c rest ih =>
    cases more with
    | zero => exact Nat.zero_le _
    | succ more =>
      rw [continuation]
      split
      · exact Nat.succ_le_succ (ih _ _ _ _)
      · exact Nat.zero_le _

/-- A unit takes no more bytes than there are. -/
theorem unit_snd_le (c : UInt8) (rest : List UInt8) : (unit c rest).2 ≤ rest.length := by
  unfold unit
  split
  · exact Nat.zero_le _
  · split
    · exact Nat.zero_le _
    · exact continuation_snd_le _ _ _ _ _

section Ascii

variable {b : UInt8} (hb : b < 0x80) (right : List UInt8)

include hb

/-- A character ends before a byte below 0x80, if not earlier. -/
theorem continuation_append_ascii {low : UInt8} (hlow : 0x80 ≤ low) (more : Nat) (high : UInt8)
    (bits : Nat) (left : List UInt8) :
    continuation more low high bits (left ++ b :: right) =
      continuation more low high bits left := by
  induction left generalizing more low high bits with
  | nil =>
    cases more with
    | zero => rfl
    | succ more =>
      have hless : ¬(low ≤ b ∧ b ≤ high) := by
        intro hrange
        have hself := UInt8.lt_of_lt_of_le hb (UInt8.le_trans hlow hrange.1)
        exact UInt8.lt_irrefl b hself
      rw [List.nil_append]
      exact if_neg hless
  | cons c left ih =>
    cases more with
    | zero => rfl
    | succ more =>
      rw [List.cons_append, continuation, continuation, ih (UInt8.le_refl _)]

/-- A unit that ASCII breaks off is the same as at the end of the bytes. -/
theorem unit_append_ascii (c : UInt8) (left : List UInt8) :
    unit c (left ++ b :: right) = unit c left := by
  unfold unit
  split
  · rfl
  · cases hlead : lead? c with
    | none => rfl
    | some lead =>
      dsimp only
      rw [continuation_append_ascii hb right (low_of_lead? hlead)]

/-- A byte below 0x80 stands for itself, and the bytes before and behind it are read on their
own. -/
theorem units_append_ascii (left : List UInt8) :
    units (left ++ b :: right) = units left ++ some (Char.ofUInt8 b) :: units right := by
  -- the bytes that belong to the unit before the cut are generalized for the induction
  suffices h : ∀ skip, skip ≤ left.length →
      unitsFrom skip (left ++ b :: right) =
        unitsFrom skip left ++ some (Char.ofUInt8 b) :: units right from h 0 (Nat.zero_le _)
  intro skip
  induction left generalizing skip with
  | nil =>
    intro hskip
    rw [Nat.le_zero.1 hskip]
    have hunit : unit b right = (some (Char.ofUInt8 b), 0) := if_pos hb
    change (unit b right).1 :: unitsFrom (unit b right).2 right = _
    rw [hunit]
    rfl
  | cons c left ih =>
    intro hskip
    cases skip with
    | zero =>
      rw [List.cons_append, unitsFrom, unitsFrom, unit_append_ascii hb, ih _ (unit_snd_le c left)]
      rfl
    | succ skip => exact ih skip (Nat.le_of_succ_le_succ hskip)

end Ascii

/-- Bytes are well-formed throughout if each unit of them is a character. -/
theorem isSome_decode? (bytes : List UInt8) :
    (decode? bytes).isSome = (units bytes).all (·.isSome) := by
  rw [decode?, Option.isSome_map]
  induction units bytes with
  | nil => rfl
  | cons found units ih =>
    rw [List.mapM_cons, List.all_cons, ← ih]
    cases found with
    | none => rfl
    | some c => cases units.mapM id <;> rfl

end LineBasic.Utf8
