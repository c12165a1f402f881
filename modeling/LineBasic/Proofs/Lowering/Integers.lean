import Mathlib.Data.Nat.Digits.Lemmas
import LineBasic.Lowering.Statement
import LineBasic.Proofs.Grammar.Names
import LineBasic.Proofs.Lowering.ReadBack

/-!
# Integers in C text

Integers keep their spelling in C text, and C reads digits behind a leading zero as octal. So the C
text of an integer is a C constant for its value, the decimal value of its digits, if and only if
there is no leading zero or the value is less than eight (`integer_keeps_value_iff`). This holds for
the integers in expressions and for the sizes of arrays, which are written in the same way
(`ArrayDecl.toC_eq_element`), whether or not something is wrong with the listing.
-/

namespace LineBasic

/-! ## Integers of a program -/

/-- The integer that an expression is, if it is one. -/
def Expr.int? : Expr → Option IntLit
  | int literal => some literal
  | _ => none

namespace Statement

/-- The sizes of arrays that a statement declares. -/
def sizes : Statement → List IntLit
  | dim arrays _ => arrays.flatMap ArrayDecl.sizes
  | _ => []

/-- The integers in the expressions of some statements, and the sizes of the arrays that they
declare. -/
def listIntegers (statements : List Statement) : List IntLit :=
  (listExpressions statements).filterMap Expr.int? ++ (listNodes statements).flatMap sizes

end Statement

/-- Sizes are written like integers in expressions. -/
theorem ArrayDecl.toC_eq_element (array : ArrayDecl) :
    array.toC = CText.element array.name (array.sizes.map fun size => (Expr.int size).toC) :=
  rfl

/-- The integer literals of a program have a spelling. -/
theorem isSpellable_of_mem_listIntegers {bytes : List UInt8} {literal : IntLit}
    (h : literal ∈ Statement.listIntegers (parse bytes).program) : literal.isSpellable = true := by
  -- a literal is an expression or the size of an array
  rcases List.mem_append.1 h with h | h
  · obtain ⟨e, he, hint⟩ := List.mem_filterMap.1 h
    have hlexical := isLexical_of_mem_program he
    cases e with
    | int other =>
      obtain rfl : other = literal := Option.some.inj hint
      exact hlexical
    | _ => cases hint
  · obtain ⟨node, hnode, hsize⟩ := List.mem_flatMap.1 h
    have hnamed := isNamed_of_mem_program hnode
    cases node with
    | dim arrays loc =>
      obtain ⟨array, harray, hsize⟩ := List.mem_flatMap.1 hsize
      have h := List.all_eq_true.1 hnamed array harray
      rw [ArrayDecl.isSpellable, Bool.and_eq_true] at h
      exact List.all_eq_true.1 h.2 literal hsize
    | _ => cases hsize

namespace CText

/-! ## Constants of C -/

/-- The values of digits, the last digit first. -/
def digitValues (digits : List Char) : List Nat :=
  digits.reverse.map fun digit => digit.toNat - '0'.toNat

/-- Whether a character is an octal digit. -/
def isOctalDigit (c : Char) : Bool :=
  c.isDigit && c ≤ '7'

/-- The number that characters denote as an integer constant of C: an octal number if there are
more digits behind a leading zero, and a decimal number otherwise. -/
def constantValue? : List Char → Option Nat
  | '0' :: second :: rest =>
    if (second :: rest).all isOctalDigit then
      some (Nat.ofDigits 8 (digitValues (second :: rest)))
    else
      none
  | chars =>
    if chars ≠ [] ∧ chars.all Char.isDigit then some (Nat.ofDigits 10 (digitValues chars)) else none

/-- The number that a text denotes as an integer constant of C, if it is one and fits in 64 bits
with a sign. -/
def constant? (text : String) : Option Nat :=
  (constantValue? text.toList).filter (· < 2 ^ 63)

/-! ## Decimal and octal numbers -/

/-- The value of the last digit comes first. -/
theorem digitValues_concat (digits : List Char) (last : Char) :
    digitValues (digits ++ [last]) = (last.toNat - '0'.toNat) :: digitValues digits := by
  rw [digitValues, List.reverse_concat, List.map_cons, ← digitValues]

/-- The decimal value is that of the digits to base ten. -/
theorem decimalValue_eq_ofDigits (digits : List Char) :
    decimalValue digits = Nat.ofDigits 10 (digitValues digits) := by
  induction digits using List.reverseRecOn with
  | nil => rfl
  | append_singleton digits last ih =>
    rw [decimalValue, List.foldl_concat, ← decimalValue, ih, digitValues_concat, Nat.ofDigits_cons,
      Nat.add_comm, Nat.mul_comm]

/-- A leading zero has no value, to whatever base. -/
theorem ofDigits_digitValues_zero_cons (base : Nat) (digits : List Char) :
    Nat.ofDigits base (digitValues ('0' :: digits)) = Nat.ofDigits base (digitValues digits) := by
  rw [digitValues, List.reverse_cons, List.map_append, ← digitValues]
  exact Nat.ofDigits_append_zero _

/-- A number is at least each of its digits. -/
theorem le_ofDigits_of_mem {values : List Nat} {value : Nat} (h : value ∈ values) :
    value ≤ Nat.ofDigits 10 values := by
  induction values with
  | nil => cases h
  | cons last values ih =>
    rw [Nat.ofDigits_cons]
    rcases List.mem_cons.1 h with rfl | h
    · exact Nat.le_add_right _ _
    · have := ih h
      omega

/-- Octal digits denote the same number in both systems if and only if there is only one of them
that counts. -/
theorem ofDigits_eight_eq_iff {values : List Nat} (h : ∀ value ∈ values, value < 8) :
    Nat.ofDigits 8 values = Nat.ofDigits 10 values ↔ Nat.ofDigits 10 values < 8 := by
  cases values with
  | nil => decide
  | cons last values =>
    have hlast := h last List.mem_cons_self
    have hle : Nat.ofDigits 8 values ≤ Nat.ofDigits 10 values :=
      Nat.ofDigits_monotone values (by decide)
    rw [Nat.ofDigits_cons, Nat.ofDigits_cons]
    -- what stands before the last digit counts eight times here and ten times there
    omega

/-! ## Digits as constants -/

/-- A digit is octal if its value is below eight. -/
theorem isOctalDigit_iff {c : Char} (h : c.isDigit = true) :
    isOctalDigit c = true ↔ c.toNat - '0'.toNat < 8 := by
  have hle : c ≤ '7' ↔ c.toNat ≤ 55 := Iff.rfl
  have hzero : '0'.toNat = 48 := rfl
  rw [isOctalDigit, h, Bool.true_and, decide_eq_true_eq, hle, hzero]
  omega

/-- Digits behind a leading zero denote their decimal value if and only if it is less than eight. -/
theorem constantValue?_zero_cons_iff {second : Char} {rest : List Char}
    (h : ∀ c ∈ second :: rest, c.isDigit = true) :
    constantValue? ('0' :: second :: rest) = some (Nat.ofDigits 10 (digitValues (second :: rest))) ↔
      Nat.ofDigits 10 (digitValues (second :: rest)) < 8 := by
  have hvalues : (second :: rest).all isOctalDigit = true ↔
      ∀ value ∈ digitValues (second :: rest), value < 8 := by
    simp only [digitValues, List.mem_map, List.mem_reverse, List.all_eq_true]
    constructor
    · rintro hall _ ⟨c, hc, rfl⟩
      exact (isOctalDigit_iff (h c hc)).1 (hall c hc)
    · intro hall c hc
      exact (isOctalDigit_iff (h c hc)).2 (hall _ ⟨c, hc, rfl⟩)
  rw [constantValue?]
  split
  next hoctal => rw [Option.some_inj, ofDigits_eight_eq_iff (hvalues.1 hoctal)]
  next hoctal =>
    -- a digit that is not octal is at least eight by itself
    rw [hvalues] at hoctal
    push Not at hoctal
    obtain ⟨value, hmem, hvalue⟩ := hoctal
    have hle := le_ofDigits_of_mem hmem
    simp only [reduceCtorEq, false_iff]
    omega

/-- Digits denote their decimal value in C if and only if they have no leading zero or the value is
less than eight. -/
theorem constantValue?_eq_some_iff {chars : List Char} (hne : chars ≠ [])
    (h : ∀ c ∈ chars, c.isDigit = true) :
    constantValue? chars = some (Nat.ofDigits 10 (digitValues chars)) ↔
      chars.head? ≠ some '0' ∨ Nat.ofDigits 10 (digitValues chars) < 8 := by
  have hdecimal (hrule : constantValue? chars =
      if chars ≠ [] ∧ chars.all Char.isDigit then some (Nat.ofDigits 10 (digitValues chars))
      else none) : constantValue? chars = some (Nat.ofDigits 10 (digitValues chars)) := by
    rw [hrule, if_pos ⟨hne, List.all_eq_true.2 h⟩]
  -- a zero alone is decimal, and so is everything that does not start with one
  match chars with
  | [] => exact absurd rfl hne
  | [c] =>
    refine iff_of_true (hdecimal (by rw [constantValue?]; simp)) ?_
    by_cases hc : c = '0'
    · subst hc
      exact .inr (by decide)
    · exact .inl (by simpa using hc)
  | c :: second :: rest =>
    by_cases hc : c = '0'
    · subst hc
      rw [ofDigits_digitValues_zero_cons,
        constantValue?_zero_cons_iff fun c hc => h c (List.mem_cons_of_mem _ hc)]
      simp
    · have hrule := hdecimal (by rw [constantValue?]; simpa using hc)
      exact iff_of_true hrule (.inl (by simpa using hc))

end CText

/-- An integer of a program has the decimal value of its digits, which fits in 64 bits with a sign,
and its C text is a C constant for this value if and only if the digits have no leading zero or the
value is less than eight. -/
theorem integer_keeps_value_iff {bytes : List UInt8} {literal : IntLit}
    (h : literal ∈ Statement.listIntegers (parse bytes).program) :
    ∃ value : Nat, literal.value = value ∧
      isDigits literal.literal = true ∧
      value = Nat.ofDigits 10 (CText.digitValues literal.literal.toList) ∧ value < 2 ^ 63 ∧
      (CText.constant? (Expr.int literal).toC = some value ↔
        literal.literal.toList.head? ≠ some '0' ∨ value < 8) := by
  have hspellable := isSpellable_of_mem_listIntegers h
  rw [IntLit.isSpellable, Bool.and_eq_true, Bool.and_eq_true, decide_eq_true_eq, beq_iff_eq,
    CText.decimalValue_eq_ofDigits] at hspellable
  obtain ⟨⟨hdigits, hlimit⟩, hvalue⟩ := hspellable
  have hlt : Nat.ofDigits 10 (CText.digitValues literal.literal.toList) < 2 ^ 63 := by omega
  refine ⟨_, hvalue, hdigits, rfl, hlt, ?_⟩
  rw [isDigits, Bool.and_eq_true, Bool.not_eq_true', List.isEmpty_eq_false_iff] at hdigits
  rw [← CText.constantValue?_eq_some_iff hdigits.1 (List.all_eq_true.1 hdigits.2), Expr.toC,
    CText.constant?, Option.filter_eq_some_iff, and_iff_left (decide_eq_true hlt)]

/-- The size of an array, with a leading zero that changes nothing. -/
theorem integer_keeps_value_iff_size :
    let bytes := Utf8.encode "10 DIM A(07)"
    let literal : IntLit := ⟨7, "07", ⟨1, 10⟩⟩
    literal ∈ Statement.listIntegers (parse bytes).program ∧
      ∃ value : Nat, literal.value = value ∧
        isDigits literal.literal = true ∧
        value = Nat.ofDigits 10 (CText.digitValues literal.literal.toList) ∧ value < 2 ^ 63 ∧
        (CText.constant? (Expr.int literal).toC = some value ↔
          literal.literal.toList.head? ≠ some '0' ∨ value < 8) := by
  intro bytes literal
  have hmem : literal ∈ Statement.listIntegers (parse bytes).program := by decide +kernel
  exact ⟨hmem, integer_keeps_value_iff hmem⟩

/-- A leading zero turns ten into eight, and eight into no constant at all. -/
theorem integer_becomes_octal :
    ∃ ten eight : IntLit, [ten, eight] =
        Statement.listIntegers (parse (Utf8.encode "10 X = 010 + 08")).program ∧
      ten.value = 10 ∧ (Expr.int ten).toC = "010" ∧ CText.constant? "010" = some 8 ∧
      eight.value = 8 ∧ (Expr.int eight).toC = "08" ∧ CText.constant? "08" = none := by
  refine ⟨⟨10, "010", ⟨1, 8⟩⟩, ⟨8, "08", ⟨1, 14⟩⟩, by decide +kernel, rfl, rfl, by decide +kernel,
    rfl, rfl, by decide +kernel⟩

end LineBasic
