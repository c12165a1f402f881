/-!
# UTF-8 text in byte lists

Characters of a byte list, read by the UTF-8 rules: each step takes either one well-formed
character or the longest run of bytes that starts a character and breaks off. The lossy
reading puts U+FFFD for each such run, the strict reading accepts none of them.
-/

namespace LineBasic.Utf8

/-- What the first byte of a character of several bytes announces. -/
structure Lead where
  /-- The number of bytes that must follow. -/
  more : Nat
  /-- The least byte that may come second. -/
  low : UInt8
  /-- The greatest byte that may come second. -/
  high : UInt8
  /-- The bits of the code point that the first byte holds. -/
  bits : Nat
  deriving DecidableEq, Repr

/-- The announcement of a first byte outside ASCII, or nothing if no character starts with
it. The bounds on the second byte exclude overlong forms, surrogates and code points above
U+10FFFF. -/
def lead? (b : UInt8) : Option Lead :=
  if 0xC2 ≤ b ∧ b ≤ 0xDF then some ⟨1, 0x80, 0xBF, b.toNat - 0xC0⟩
  else if b = 0xE0 then some ⟨2, 0xA0, 0xBF, 0⟩
  else if b = 0xED then some ⟨2, 0x80, 0x9F, 0xD⟩
  else if 0xE1 ≤ b ∧ b ≤ 0xEF then some ⟨2, 0x80, 0xBF, b.toNat - 0xE0⟩
  else if b = 0xF0 then some ⟨3, 0x90, 0xBF, 0⟩
  else if 0xF1 ≤ b ∧ b ≤ 0xF3 then some ⟨3, 0x80, 0xBF, b.toNat - 0xF0⟩
  else if b = 0xF4 then some ⟨3, 0x80, 0x8F, 4⟩
  else none

/-- Reads `more` bytes that continue a character, the first of them between `low` and
`high`. The result is the code point, if all of them are there, and the number of bytes
taken. -/
def continuation : (more : Nat) → (low high : UInt8) → (bits : Nat) → List UInt8 →
    Option Nat × Nat
  | 0, _, _, bits, _ => (some bits, 0)
  | _ + 1, _, _, _, [] => (none, 0)
  | more + 1, low, high, bits, b :: rest =>
    if low ≤ b ∧ b ≤ high then
      let (code, taken) := continuation more 0x80 0xBF (bits * 64 + (b.toNat - 0x80)) rest
      (code, taken + 1)
    else
      (none, 0)

/-- The character that starts with byte `b`, if one does, and the number of bytes of `rest`
that belong to it. -/
def unit (b : UInt8) (rest : List UInt8) : Option Char × Nat :=
  if b < 0x80 then (some (Char.ofUInt8 b), 0)
  else
    match lead? b with
    | none => (none, 0)
    | some lead =>
      let (code, taken) := continuation lead.more lead.low lead.high lead.bits rest
      (code.map Char.ofNat, taken)

/-- The units of a byte list after its first `skip` bytes. -/
def unitsFrom : (skip : Nat) → List UInt8 → List (Option Char)
  | _, [] => []
  | skip + 1, _ :: rest => unitsFrom skip rest
  | 0, b :: rest => (unit b rest).1 :: unitsFrom (unit b rest).2 rest

/-- A byte list cut into characters, with `none` for each run of bytes that is no
character. -/
def units (bytes : List UInt8) : List (Option Char) :=
  unitsFrom 0 bytes

/-- The text of a byte list, with U+FFFD in the place of each run that is no character. -/
def decodeLossy (bytes : List UInt8) : String :=
  String.ofList ((units bytes).map (·.getD '\uFFFD'))

/-- The text of a byte list that is well-formed throughout. -/
def decode? (bytes : List UInt8) : Option String :=
  ((units bytes).mapM id).map String.ofList

/-- The bytes of a text. -/
def encode (text : String) : List UInt8 :=
  text.toList.flatMap String.utf8EncodeChar

end LineBasic.Utf8
