import LineBasic.Proofs.Grammar.Contents
import LineBasic.Proofs.Grammar.Soundness
import LineBasic.Proofs.Token.Literals

/-!
# Names and literals of programs

The names in the expressions of a program are names that a listing can hold, its integers are
digits with their value, and its strings have no quote in them (`Grammar.passes_isLexical`): the
parser takes them from tokens as they are. This is so whether or not something is wrong with the
listing.
-/

namespace LineBasic

open Cursor Parse

mutual

/-- Whether all names and literals of an expression are such as tokens have. -/
def Expr.isLexical : Expr → Bool
  | .var name indices _ => isName name && Expr.listIsLexical indices
  | .int literal => literal.isSpellable
  | .str text _ => text.toList.all isStringChar
  | .unary _ operand _ => operand.isLexical
  | .binary _ left right _ => left.isLexical && right.isLexical
  | .call function arguments _ => isName function && Expr.listIsLexical arguments

/-- Whether all names and literals of some expressions are such as tokens have. -/
def Expr.listIsLexical : List Expr → Bool
  | [] => true
  | head :: tail => head.isLexical && Expr.listIsLexical tail

end

/-- A list of expressions is lexical if each of them is. -/
theorem Expr.listIsLexical_iff {expressions : List Expr} :
    Expr.listIsLexical expressions = true ↔ ∀ e ∈ expressions, e.isLexical = true := by
  induction expressions with
  | nil => simp [listIsLexical]
  | cons head tail ih => rw [listIsLexical, Bool.and_eq_true, ih, List.forall_mem_cons]

/-- Whether all names and literals of a phrase are such as tokens have. -/
def Phrase.isLexical : Phrase → Bool
  | expr expression => expression.isLexical
  | list expressions => Expr.listIsLexical expressions
  | arguments expressions => Expr.listIsLexical expressions

/-- The text of an integer that has a value consists of digits. -/
theorem isSpellable_of_integerValue? {literal : String} {value : Int} (loc : Location)
    (h : integerValue? literal = some value) :
    (IntLit.mk value literal loc).isSpellable = true := by
  unfold integerValue? at h
  dsimp only at h
  split at h
  next hdigits =>
    cases h
    obtain ⟨hne, hall, hlimit⟩ := hdigits
    have hle : decimalValue literal.toList ≤ 0x7FFFFFFFFFFFFFFF := Nat.le_of_lt_succ hlimit
    have hempty : literal.toList.isEmpty = false := List.isEmpty_eq_false_iff.2 hne
    simp [IntLit.isSpellable, isDigits, hempty, hall, hle]
  next => cases h

/-- What is read from tokens has their names and literals. -/
theorem ExprReading.isLexical {declared : String → Bool} {ts us : List Token} {phrase : Phrase}
    (h : ExprReading declared ts phrase us)
    (hts : ∀ t ∈ ts, t.kind.allows t.literal = true) : phrase.isLexical = true := by
  have hname {t : Token} (ht : t.kind = .ident) (h : t.kind.allows t.literal = true) :
      isName t.literal = true := by
    rw [ht] at h
    exact h
  -- along the reading; what is left over of the tokens is among them
  induction h with
  | name ht =>
    rw [Phrase.isLexical, Expr.isLexical, hname ht (hts _ List.mem_cons_self)]
    rfl
  | element ht _ _ _ _ ih =>
    have hindices := ih fun t ht => hts t (List.mem_cons_of_mem _ (List.mem_cons_of_mem _ ht))
    rw [Phrase.isLexical, Expr.isLexical, hname ht (hts _ List.mem_cons_self)]
    exact hindices
  | bareCall ht _ _ ih | call ht _ _ ih =>
    have hargs := ih fun t ht => hts t (List.mem_cons_of_mem _ ht)
    rw [Phrase.isLexical, Expr.isLexical, hname ht (hts _ List.mem_cons_self)]
    exact hargs
  | groupedCall _ hgroup _ _ ih ih' =>
    have hgroup' := ih fun t ht => hts t (List.mem_cons_of_mem _ ht)
    have hargs := ih' fun t ht => hts t
      (List.mem_cons_of_mem _ (hgroup.suffix.mem (List.mem_cons_of_mem _ ht)))
    rw [Phrase.isLexical, Expr.isLexical, Bool.and_eq_true] at hgroup'
    rw [Phrase.isLexical, Expr.isLexical, hgroup'.1]
    exact hargs
  | int _ hvalue => exact isSpellable_of_integerValue? _ hvalue
  | str ht =>
    have h := hts _ List.mem_cons_self
    rw [ht] at h
    exact h
  | grouped _ _ _ ih | unary _ _ ih => exact ih fun t ht => hts t (List.mem_cons_of_mem _ ht)
  | binary hleft _ _ ih ih' =>
    have hright := ih' fun t ht => hts t (hleft.suffix.mem (List.mem_cons_of_mem _ ht))
    rw [Phrase.isLexical, Expr.isLexical, Bool.and_eq_true]
    exact ⟨ih hts, hright⟩
  | one _ ih =>
    rw [Phrase.isLexical, Expr.listIsLexical, Bool.and_eq_true]
    exact ⟨ih hts, rfl⟩
  | cons he _ _ ih ih' =>
    have htail := ih' fun t ht => hts t (he.suffix.mem (List.mem_cons_of_mem _ ht))
    rw [Phrase.isLexical, Expr.listIsLexical, Bool.and_eq_true]
    exact ⟨ih hts, htail⟩
  | noArguments => rfl
  | someArguments _ _ _ ih => exact ih fun t ht => hts t (List.mem_cons_of_mem _ ht)

namespace Grammar

/-- The parser finds only expressions with names and literals such as tokens have. -/
theorem passes_isLexical :
    Passes (fun token => token.kind.allows token.literal = true)
      fun _ e => e.isLexical = true where
  found levels power cursor e last hrun hall :=
    ⟨hall.of_suffix ((expression_keeps growth_leads.toDrift levels power).of_ok hrun).tokens,
      (expression_reads levels power cursor e last hrun).1.isLexical hall⟩
  var _ token indices hkind htoken h := by
    rw [hkind] at htoken
    rw [Expr.isLexical, Expr.listIsLexical_iff.2 h, Bool.and_true]
    exact htoken
  call _ token arguments hkind htoken h := by
    rw [hkind] at htoken
    rw [Expr.isLexical, Expr.listIsLexical_iff.2 h, Bool.and_true]
    exact htoken
  one _ _ loc _ := isSpellable_of_integerValue? loc (by decide +kernel)

end Grammar

end LineBasic
