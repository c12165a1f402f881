/-!
# Quoted text

How a text is shown between quotes in messages, so that it stands on one line and shows
every character. A double quote, a backslash and the four common controls are written with
a backslash and a letter, other characters that do not print by their code point.
-/

namespace LineBasic.Quoted

/-- Ranges of code points that have no visible form of their own: controls, blanks other
than the space, the blocks of general combining marks and variation selectors, joiners and
direction marks, private use and non-characters. Combining marks of single scripts are not
listed. -/
def invisible : List (Nat × Nat) :=
  [(0x00, 0x1F), (0x7F, 0xA0), (0xAD, 0xAD), (0x0300, 0x036F), (0x1680, 0x1680),
    (0x2000, 0x200F), (0x2028, 0x202F), (0x205F, 0x206F), (0x20D0, 0x20F0), (0x3000, 0x3000),
    (0xE000, 0xF8FF), (0xFE00, 0xFE0F), (0xFE20, 0xFE2F), (0xFEFF, 0xFEFF), (0xFFF9, 0xFFFB),
    (0xFFFE, 0xFFFF), (0xE0000, 0x10FFFF)]

/-- Whether a character prints as itself. -/
def isPrintable (c : Char) : Bool :=
  !invisible.any fun (low, high) => low ≤ c.toNat && c.toNat ≤ high

/-- The written form of one character inside quotes. -/
def encodeChar (c : Char) : List Char :=
  match c with
  | '"' => ['\\', '"']
  | '\\' => ['\\', '\\']
  | '\t' => ['\\', 't']
  | '\n' => ['\\', 'n']
  | '\r' => ['\\', 'r']
  | '\x00' => ['\\', '0']
  | c =>
    if isPrintable c then [c]
    else ['\\', 'u', '\x7b'] ++ Nat.toDigits 16 c.toNat ++ ['\x7d']

/-- A text between double quotes. -/
def encode (text : String) : String :=
  String.ofList ('"' :: text.toList.flatMap encodeChar ++ ['"'])

end LineBasic.Quoted
