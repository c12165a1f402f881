import LineBasic.Proofs.Calls
import LineBasic.Proofs.Spelling.Lexical
import LineBasic.Proofs.Spelling.Program.Text

/-!
# Which programs can be written

A program that was parsed without a diagnostic can be written, if it calls no name that is declared
before (`listIsSpellable_of_isClean`): each name and each literal is that of a token, subscripts
stand behind declared names, and what is called is not declared there.

The parser asks that last thing of a name itself, except where the name stands in parentheses of
its own. There it follows from the places: what is declared where the call is read stands before
it.
-/

namespace LineBasic

/-! ## Expressions -/

/-- Whether a phrase can be written where the names in `declared` are those of arrays. -/
def Phrase.isSpellable (declared : String → Bool) : Phrase → Bool
  | expr expression => expression.isSpellable declared
  | list expressions => Expr.listIsSpellable declared expressions
  | arguments expressions => Expr.listIsSpellable declared expressions

section Expressions

variable {declared : String → Bool} {ts us : List Token} {phrase : Phrase}

/-- A name, in parentheses or not, stands at one of the tokens it is read from. -/
theorem ExprReading.exists_of_name {name : String} {loc : Location}
    (h : ExprReading declared ts (.expr (.var name [] loc)) us) : ∃ t ∈ ts, t.loc = loc := by
  generalize hphrase : Phrase.expr (.var name [] loc) = phrase at h
  induction h with
  | name ht =>
    cases hphrase
    exact ⟨_, List.mem_cons_self, rfl⟩
  | element _ _ _ hindices =>
    cases hphrase
    -- with subscripts it would be no plain name
    exact absurd rfl hindices.list_ne_nil
  | grouped _ _ _ ih =>
    obtain ⟨t, ht, hloc⟩ := ih hphrase
    exact ⟨t, List.mem_cons_of_mem _ ht, hloc⟩
  | _ => cases hphrase

/-- The tokens have literals that their kinds allow, and none of the calls that stand at one of them
is that of an array. -/
structure Sound (declared : String → Bool) (calls : List (String × Location))
    (ts : List Token) : Prop where
  allows : ∀ t ∈ ts, t.kind.allows t.literal = true
  calls : ∀ call ∈ calls, ∀ t ∈ ts, t.loc = call.2 → declared call.1 = false

namespace Sound

variable {calls : List (String × Location)}

theorem mono {fewer : List (String × Location)} (h : Sound declared calls ts)
    (hcalls : fewer ⊆ calls) (hts : us ⊆ ts) : Sound declared fewer us :=
  ⟨fun t ht => h.allows t (hts ht), fun call hcall t ht => h.calls call (hcalls hcall) t (hts ht)⟩

theorem tail {t : Token} (h : Sound declared calls (t :: ts)) : Sound declared calls ts :=
  h.mono (List.Subset.refl _) (List.subset_cons_self _ _)

/-- The tokens behind the name of a call. -/
theorem ofCall {t : Token} {call : String × Location}
    (h : Sound declared (call :: calls) (t :: ts)) : Sound declared calls ts :=
  h.tail.mono (List.subset_cons_self _ _) (List.Subset.refl _)

/-- An identifier is a name. -/
theorem isName {t : Token} (h : Sound declared calls (t :: ts)) (ht : t.kind = .ident) :
    LineBasic.isName t.literal = true := by
  have hallows := h.allows t List.mem_cons_self
  rwa [ht] at hallows

end Sound

/-- What is read from sound tokens can be written. -/
theorem ExprReading.isSpellable (h : ExprReading declared ts phrase us)
    (hsound : Sound declared phrase.calls ts) : phrase.isSpellable declared = true := by
  induction h with
  | name ht =>
    rw [Phrase.isSpellable, Expr.isSpellable, hsound.isName ht]
    rfl
  | element ht hdeclared _ _ _ ih =>
    rw [Phrase.isSpellable, Expr.isSpellable, hsound.isName ht, hdeclared, Bool.or_true]
    exact ih hsound.tail.tail
  | bareCall ht hdeclared _ ih | call ht hdeclared _ ih =>
    rw [Phrase.isSpellable, Expr.isSpellable, hsound.isName ht, hdeclared]
    exact ih hsound.ofCall
  | groupedCall _ hgroup _ _ ih ih' =>
    -- the name is free, since it stands where the call does
    obtain ⟨t, ht, hloc⟩ := hgroup.exists_of_name
    have hfree := hsound.calls _ List.mem_cons_self t (List.mem_cons_of_mem _ ht) hloc
    have hname := ih (hsound.tail.mono (List.nil_subset _) (List.Subset.refl _))
    simp only [Phrase.isSpellable, Expr.isSpellable, Bool.and_eq_true] at hname
    rw [Phrase.isSpellable, Expr.isSpellable, hname.1.1, hfree]
    exact ih' (hsound.tail.mono (List.subset_cons_self _ _)
      (List.Subset.trans (List.subset_cons_self _ _) hgroup.suffix.subset))
  | int _ hvalue => exact isSpellable_of_integerValue? _ hvalue
  | str ht =>
    have hallows := hsound.allows _ List.mem_cons_self
    rwa [ht] at hallows
  | grouped _ _ _ ih | unary _ _ ih => exact ih hsound.tail
  | binary hleft _ _ ih ih' =>
    rw [Phrase.isSpellable, Expr.isSpellable, Bool.and_eq_true]
    exact ⟨ih (hsound.mono (List.subset_append_left _ _) (List.Subset.refl _)),
      ih' (hsound.mono (List.subset_append_right _ _)
        (List.Subset.trans (List.subset_cons_self _ _) hleft.suffix.subset))⟩
  | one _ ih =>
    rw [Phrase.isSpellable, Expr.listIsSpellable, Bool.and_eq_true]
    exact ⟨ih (hsound.mono (List.subset_append_left _ _) (List.Subset.refl _)), rfl⟩
  | cons he _ _ ih ih' =>
    rw [Phrase.isSpellable, Expr.listIsSpellable, Bool.and_eq_true]
    exact ⟨ih (hsound.mono (List.subset_append_left _ _) (List.Subset.refl _)),
      ih' (hsound.mono (List.subset_append_right _ _)
        (List.Subset.trans (List.subset_cons_self _ _) he.suffix.subset))⟩
  | noArguments => rfl
  | someArguments _ _ _ ih => exact ih hsound.tail

end Expressions

/-! ## Parts of statements -/

section Parts

variable {ts us : List Token}

/-- The target of a jump is a number or a name, as the token it is read from. -/
theorem TargetReading.isSpellable {target : JumpTarget} (h : TargetReading ts target us)
    (hts : ∀ t ∈ ts, t.kind.allows t.literal = true) : target.isSpellable = true := by
  rw [JumpTarget.isSpellable, Bool.or_eq_true]
  cases h with
  | number ht =>
    have hallows := hts _ List.mem_cons_self
    rw [ht] at hallows
    exact .inl hallows
  | label _ hn =>
    have hallows := hts _ (List.mem_cons_of_mem _ List.mem_cons_self)
    rw [hn] at hallows
    exact .inr hallows

/-- What each item that is read has, given what all tokens have. -/
theorem CommaReading.forall_mem {α : Type} {item : List Token → α → List Token → Prop}
    {values : List α} {q : Token → Prop} {p : α → Prop} (h : CommaReading item ts values us)
    (hsuffix : ∀ ts value us, item ts value us → us <:+ ts)
    (hitem : ∀ ts value us, item ts value us → (∀ t ∈ ts, q t) → p value)
    (hts : ∀ t ∈ ts, q t) :
    values ≠ [] ∧ ∀ value ∈ values, p value := by
  induction h with
  | one hvalue => exact ⟨List.cons_ne_nil _ _, by simpa using hitem _ _ _ hvalue hts⟩
  | cons hvalue _ _ ih =>
    obtain ⟨-, htail⟩ := ih fun t ht =>
      hts t (((List.suffix_cons _ _).trans (hsuffix _ _ _ hvalue)).mem ht)
    exact ⟨List.cons_ne_nil _ _, List.forall_mem_cons.2 ⟨hitem _ _ _ hvalue hts, htail⟩⟩

/-- The size of an array has been a number that fits. -/
theorem SizeReading.isSpellable {size : IntLit} (h : SizeReading ts size us) :
    size.isSpellable = true := by
  cases h with
  | int _ hvalue => exact isSpellable_of_integerValue? _ hvalue

/-- A declared array has a name and sizes that can be spelled. -/
theorem DeclReading.isSpellable {array : ArrayDecl} (h : DeclReading ts array us)
    (hts : ∀ t ∈ ts, t.kind.allows t.literal = true) : array.isSpellable = true := by
  cases h with
  | array hn _ hsizes =>
    have hname := hts _ List.mem_cons_self
    rw [hn] at hname
    have hsize (ts : List Token) (size : IntLit) (us : List Token) (h : SizeReading ts size us)
        (_ : ∀ t ∈ ts, True) : size.isSpellable = true := h.isSpellable
    obtain ⟨hne, hall⟩ := hsizes.forall_mem (fun _ _ _ => SizeReading.suffix) hsize
      fun _ _ => trivial
    simp only [ArrayDecl.isSpellable, Bool.and_eq_true, Bool.not_eq_true',
      List.isEmpty_eq_false_iff, List.all_eq_true]
    exact ⟨⟨hname, hne⟩, hall⟩

/-- A `STEP` can be spelled if its tokens are sound, and one that is left out can be in any case. -/
theorem StepReading.isSpellable {declared : String → Bool} {loc : Location} {step : Expr}
    (h : StepReading declared loc ts step us) (hsound : Sound declared step.calls ts) :
    step.isSpellable declared = true := by
  cases h with
  | given _ hstep => exact hstep.isSpellable hsound.tail
  | default => exact isSpellable_of_integerValue? loc (by decide +kernel)

/-- The parts of the head of a loop can be spelled if its tokens are sound. -/
theorem HeadReading.isSpellable {declared : String → Bool} {loc : Location} {counter : String}
    {first last step : Expr} (h : HeadReading declared loc ts counter first last step us)
    (hsound : Sound declared (first.calls ++ last.calls ++ step.calls) ts) :
    isName counter = true ∧ first.isSpellable declared = true ∧
      last.isSpellable declared = true ∧ step.isSpellable declared = true := by
  cases h with
  | head hn _ hfirst _ hlast hstep =>
    have hrest := hsound.tail.tail
    have hbehind := List.Subset.trans (List.subset_cons_self _ _) hfirst.suffix.subset
    refine ⟨hsound.isName hn, hfirst.isSpellable (hrest.mono ?_ (List.Subset.refl _)),
      hlast.isSpellable (hrest.mono ?_ hbehind),
      hstep.isSpellable (hrest.mono ?_ (List.Subset.trans hlast.suffix.subset hbehind))⟩
    · exact List.Subset.trans (List.subset_append_left _ _) (List.subset_append_left _ _)
    · exact List.Subset.trans (List.subset_append_right _ _) (List.subset_append_left _ _)
    · exact List.subset_append_right _ _

end Parts

/-! ## Where declarations stand -/

section Places

variable {before after : Declarations} {ts us : List Token} {clause : Clause}

/-- Each of the declarations stands before all of the tokens. -/
def Declarations.Precede (declarations : Declarations) (ts : List Token) : Prop :=
  ∀ d ∈ declarations, ∀ t ∈ ts, d.2.Before t.loc

namespace Declarations.Precede

variable {left right : Declarations}

theorem nil : Precede [] ts := by
  intro d hd
  cases hd

theorem append (hleft : Precede left ts) (hright : Precede right ts) :
    Precede (left ++ right) ts :=
  List.forall_mem_append.2 ⟨hleft, hright⟩

theorem mono (h : Precede left ts) (hsuffix : us <:+ ts) : Precede left us :=
  fun d hd t ht => h d hd t (hsuffix.mem ht)

end Declarations.Precede

open Declarations (Precede)

/-- The arrays of a `DIM` are declared in front of the tokens behind it. -/
theorem CommaReading.precede {arrays : List ArrayDecl} (h : CommaReading DeclReading ts arrays us)
    (hsorted : ts.Pairwise fun first second => first.loc.Before second.loc) :
    Precede (arrays.map ArrayDecl.entry) us := by
  -- the name of an array is the first of its tokens
  have hfirst {ts us : List Token} {array : ArrayDecl} (h : DeclReading ts array us)
      (hsorted : ts.Pairwise fun first second => first.loc.Before second.loc) :
      Precede [array.entry] us := by
    intro d hd t ht
    cases List.mem_singleton.1 hd
    cases h with
    | array _ _ hsizes =>
      refine List.rel_of_pairwise_cons hsorted (List.mem_cons_of_mem _ ?_)
      exact (hsizes.suffix fun _ _ _ => SizeReading.suffix).mem (List.mem_cons_of_mem _ ht)
  induction h with
  | one hvalue => exact hfirst hvalue hsorted
  | cons hvalue _ hvalues ih =>
    have hrest := (List.suffix_cons _ _).trans hvalue.suffix
    refine .append ((hfirst hvalue hsorted).mono ?_) (ih (hsorted.sublist hrest.sublist))
    exact (hvalues.suffix fun _ _ _ => DeclReading.suffix).trans (List.suffix_cons _ _)

/-- What is declared stands before the rest. -/
theorem Reading.precede (h : Reading before ts clause after us)
    (hsorted : ts.Pairwise fun first second => first.loc.Before second.loc) :
    Precede clause.declarations us := by
  have hcons := fun (t : Token) (ts : List Token) => List.suffix_cons t ts
  -- a clause leaves a suffix of its tokens, which keeps their order and stands behind the parts
  induction h with
  | dim _ hdeclared =>
    rw [Clause.declarations_statement]
    exact (hdeclared.precede hsorted.of_cons).mono (afterSeparator_suffix _)
  | cond _ hcondition _ _ ih =>
    rw [Clause.declarations_statement]
    have hsuffix := (hcons _ _).trans hcondition.suffix
    exact (ih (hsorted.of_cons.sublist hsuffix.sublist)).append .nil
  | condElse _ hcondition _ hconsequence _ halternative ih ih' =>
    rw [Clause.declarations_statement]
    have hsuffix := (hcons _ _).trans hcondition.suffix
    have hsuffix' := (hcons _ _).trans (hconsequence.suffix.trans hsuffix)
    exact ((ih (hsorted.of_cons.sublist hsuffix.sublist)).mono
      (halternative.suffix.trans (hcons _ _))).append
        (ih' (hsorted.of_cons.sublist hsuffix'.sublist))
  | loop _ hhead _ hend ih =>
    rw [Clause.declarations_statement]
    exact (ih (hsorted.of_cons.sublist hhead.suffix.sublist)).mono hend.suffix
  | cons hfound hstatements ih ih' =>
    rw [Clause.declarations, Statement.listDeclarations_append]
    exact ((ih hsorted).mono hstatements.suffix).append
      (ih' (hsorted.sublist hfound.suffix.sublist))
  | block _ ih => exact ih hsorted
  | jump => exact .nil
  | jumpBlock htarget _ ih =>
    have hsuffix := (afterSeparator_suffix _).trans htarget.suffix
    exact ih (hsorted.sublist hsuffix.sublist)
  | _ => exact .nil

/-- What is declared once a clause is read stands before what is left. -/
theorem Declarations.Precede.behind (h : before.Precede ts)
    (hreading : Reading before ts clause after us)
    (hsorted : ts.Pairwise fun first second => first.loc.Before second.loc) :
    after.Precede us := by
  rw [hreading.after_eq]
  refine .append (fun d hd => ?_) (h.mono hreading.suffix)
  exact hreading.precede hsorted d (List.mem_reverse.1 hd)

/-- The names of arrays once a clause is read. -/
theorem Reading.has_after (h : Reading before ts clause after us) :
    after.has = clause.declarations.addedTo before.has := by
  funext name
  rw [Bool.eq_iff_iff, h.after_eq, Declarations.has_iff, Declarations.addedTo, Bool.or_eq_true,
    Declarations.has_iff]
  simp only [List.mem_append, List.mem_reverse, List.any_eq_true, beq_iff_eq, exists_or]
  rw [or_comm]
  refine or_congr_right ⟨?_, ?_⟩
  · rintro ⟨loc, hmem⟩
    exact ⟨(name, loc), hmem, rfl⟩
  · rintro ⟨⟨_, loc⟩, hmem, rfl⟩
    exact ⟨loc, hmem⟩

end Places

/-! ## Statements -/

/-- Whether a clause can be written where the names in `declared` are those of arrays. -/
def Clause.isSpellable (declared : String → Bool) : Clause → Bool
  | statement found => Statement.listIsSpellable declared found.toList
  | block statements => Statement.listIsSpellable declared statements
  | branch _ arm => arm.isSpellable declared

theorem Clause.isSpellable_statement (declared : String → Bool) (statement : Statement) :
    (Clause.statement (some statement)).isSpellable declared = statement.isSpellable declared :=
  Bool.and_true _

/-- The arrays that the first statements declare count for the second ones. -/
theorem Statement.listIsSpellable_append (declared : String → Bool)
    (left right : List Statement) :
    Statement.listIsSpellable declared (left ++ right) =
      (Statement.listIsSpellable declared left &&
        Statement.listIsSpellable ((Statement.listDeclarations left).addedTo declared) right) := by
  induction left generalizing declared with
  | nil =>
    rw [List.nil_append, listDeclarations, Declarations.addedTo_nil]
    rfl
  | cons head tail ih =>
    rw [List.cons_append, listIsSpellable, listIsSpellable, ih, listDeclarations,
      Declarations.addedTo_append, Bool.and_assoc]

/-- The tokens stand in order behind what is declared so far, their literals are such as their
kinds allow, and no call is that of a name which is declared before it. -/
structure Ready (all before : Declarations) (calls : List (String × Location))
    (ts : List Token) : Prop where
  allows : ∀ t ∈ ts, t.kind.allows t.literal = true
  sorted : ts.Pairwise fun first second => first.loc.Before second.loc
  precede : before.Precede ts
  calls : ∀ call ∈ calls, ∀ d ∈ all, d.1 = call.1 → ¬d.2.Before call.2

namespace Ready

variable {all before after : Declarations} {calls fewer : List (String × Location)}
  {ts us : List Token} {clause : Clause}

/-- Fewer calls and tokens further on ask for less. -/
theorem mono (h : Ready all before calls ts) (hcalls : fewer ⊆ calls) (hts : us <:+ ts) :
    Ready all before fewer us :=
  ⟨fun t ht => h.allows t (hts.mem ht), h.sorted.sublist hts.sublist, h.precede.mono hts,
    fun call hcall => h.calls call (hcalls hcall)⟩

theorem tail {t : Token} (h : Ready all before calls (t :: ts)) : Ready all before calls ts :=
  h.mono (List.Subset.refl _) (List.suffix_cons _ _)

/-- What a reading declares is in front of the tokens behind it. -/
theorem behind (h : Ready all before calls ts) (hreading : Reading before ts clause after us) :
    Ready all after calls us := by
  have hrest := h.mono (List.Subset.refl _) hreading.suffix
  exact ⟨hrest.allows, hrest.sorted, h.precede.behind hreading h.sorted, hrest.calls⟩

/-- A call at one of the tokens is not that of an array: its declaration would stand before it. -/
theorem sound (h : Ready all before calls ts) (hknown : before ⊆ all) :
    Sound before.has calls ts := by
  refine ⟨h.allows, fun call hcall t ht hloc => ?_⟩
  rw [← Bool.not_eq_true, Declarations.has_iff]
  rintro ⟨loc, hdeclared⟩
  refine h.calls call hcall _ (hknown hdeclared) rfl ?_
  rw [← hloc]
  exact h.precede _ hdeclared t ht

end Ready

section Statements

variable {all before after : Declarations} {ts us : List Token} {clause : Clause}

/-- No reading forgets a declaration. -/
theorem Reading.before_subset (h : Reading before ts clause after us) : before ⊆ after := by
  rw [h.after_eq]
  exact List.subset_append_right _ _

/-- What is read can be written, if it calls no name that is declared before. -/
theorem Reading.isSpellable (h : Reading before ts clause after us)
    (hready : Ready all before clause.calls ts) (hknown : after ⊆ all) :
    clause.isSpellable before.has = true := by
  have hallows {kind : Token.Kind} {t : Token} (ht : t.kind = kind)
      (h : t.kind.allows t.literal = true) : kind.allows t.literal = true := ht ▸ h
  have hleft {α : Type} (left right : List α) := List.subset_append_left left right
  have hright {α : Type} (left right : List α) := List.subset_append_right left right
  induction h with
  | remark | empty => rfl
  | lineNumber ht =>
    rw [Clause.isSpellable_statement, Statement.isSpellable, Option.all_none, Bool.and_true]
    exact hallows ht (hready.allows _ List.mem_cons_self)
  | dataLine ht hd =>
    rw [Clause.isSpellable_statement, Statement.isSpellable, Option.all_some, beq_self_eq_true,
      Bool.true_and, Bool.and_eq_true]
    exact ⟨hallows ht (hready.allows _ List.mem_cons_self),
      hallows hd (hready.allows _ (List.mem_cons_of_mem _ List.mem_cons_self))⟩
  | label _ hn =>
    rw [Clause.isSpellable_statement]
    exact hallows hn (hready.allows _ (List.mem_cons_of_mem _ List.mem_cons_self))
  | dim _ hdeclared =>
    obtain ⟨hne, hall⟩ := hdeclared.forall_mem (fun _ _ _ => DeclReading.suffix)
      (fun _ _ _ => DeclReading.isSpellable) hready.tail.allows
    simp only [Clause.isSpellable_statement, Statement.isSpellable, Bool.and_eq_true,
      Bool.not_eq_true', List.isEmpty_eq_false_iff, List.all_eq_true]
    exact ⟨hne, hall⟩
  | cond _ hcondition _ hconsequence ih =>
    rw [Clause.calls_statement, Statement.calls, Branch.elseCalls, List.append_nil] at hready
    have hbefore := List.Subset.trans hconsequence.before_subset hknown
    have harm := hready.tail.mono (hright _ _) ((List.suffix_cons _ _).trans hcondition.suffix)
    simp only [Clause.isSpellable_statement, Statement.isSpellable, Bool.and_eq_true]
    exact ⟨⟨hcondition.isSpellable ((hready.tail.mono (hleft _ _) List.suffix_rfl).sound hbefore),
      ih harm hknown⟩, rfl⟩
  | condElse _ hcondition _ hconsequence _ halternative ih ih' =>
    rw [Clause.calls_statement, Statement.calls, Branch.elseCalls] at hready
    have hmiddle := List.Subset.trans halternative.before_subset hknown
    have hbefore := List.Subset.trans hconsequence.before_subset hmiddle
    have harms := hready.tail.mono (List.Subset.refl _)
      ((List.suffix_cons _ _).trans hcondition.suffix)
    -- the second arm is read where the arrays of the first one are declared
    have hsecond := ih' ((harms.behind hconsequence).tail.mono (hright _ _) List.suffix_rfl) hknown
    rw [hconsequence.has_after] at hsecond
    simp only [Clause.isSpellable_statement, Statement.isSpellable, Bool.and_eq_true]
    refine ⟨⟨hcondition.isSpellable ((hready.tail.mono ?_ List.suffix_rfl).sound hbefore),
      ih (harms.mono ?_ List.suffix_rfl) hmiddle⟩, hsecond⟩
    · exact List.Subset.trans (hleft _ _) (hleft _ _)
    · exact List.Subset.trans (hright _ _) (hleft _ _)
  | on _ hvalue _ htargets =>
    rw [Clause.calls_statement] at hready
    have hsuffix := (List.suffix_cons _ _).trans hvalue.suffix
    obtain ⟨hne, hall⟩ := htargets.forall_mem (fun _ _ _ => TargetReading.suffix)
      (fun _ _ _ => TargetReading.isSpellable)
      (hready.tail.mono (List.Subset.refl _) hsuffix).allows
    simp only [Clause.isSpellable_statement, Statement.isSpellable, Bool.and_eq_true,
      Bool.not_eq_true', List.isEmpty_eq_false_iff, List.all_eq_true]
    exact ⟨⟨hvalue.isSpellable (hready.tail.sound hknown), hne⟩, hall⟩
  | goto _ htarget | gosub _ htarget =>
    rw [Clause.isSpellable_statement]
    exact htarget.isSpellable hready.tail.allows
  | ret => rfl
  | loop _ hhead hbody _ ih =>
    rw [Clause.calls_statement, Statement.calls] at hready
    have hbefore := List.Subset.trans hbody.before_subset hknown
    obtain ⟨hcounter, hfirst, hlast, hstep⟩ :=
      hhead.isSpellable ((hready.tail.mono (hleft _ _) List.suffix_rfl).sound hbefore)
    simp only [Clause.isSpellable_statement, Statement.isSpellable, Bool.and_eq_true]
    exact ⟨⟨⟨⟨hcounter, hfirst⟩, hlast⟩, hstep⟩, ih (hready.tail.mono (hright _ _) hhead.suffix)
      hknown⟩
  | assign ht _ hvalue =>
    rw [Clause.calls_statement, Statement.calls] at hready
    have hsound := hready.sound hknown
    simp only [Clause.isSpellable_statement, Statement.isSpellable, Expr.isSpellable,
      Expr.listIsSpellable, hsound.isName ht, List.isEmpty_nil, Bool.true_or, Bool.true_and]
    exact hvalue.isSpellable (hsound.tail.tail.mono (hright _ _) (List.Subset.refl _))
  | assignElement ht hdeclared _ hindices _ _ hvalue =>
    rw [Clause.calls_statement, Statement.calls] at hready
    have hsound := hready.sound hknown
    have hsuffix := ((List.suffix_cons _ _).trans (List.suffix_cons _ _)).trans hindices.suffix
    simp only [Clause.isSpellable_statement, Statement.isSpellable, Expr.isSpellable,
      hsound.isName ht, hdeclared, Bool.or_true, Bool.true_and, Bool.and_eq_true]
    exact ⟨hindices.isSpellable (hsound.tail.tail.mono (hleft _ _) (List.Subset.refl _)),
      hvalue.isSpellable (hsound.tail.tail.mono (hright _ _) hsuffix.subset)⟩
  | plainCall ht hdeclared =>
    rw [Clause.isSpellable_statement, Statement.isSpellable, Expr.isSpellable,
      (hready.sound hknown).isName ht, hdeclared]
    rfl
  | call ht hdeclared hargs | bareCall ht hdeclared hargs =>
    rw [Clause.calls_statement, Statement.calls] at hready
    have hsound := hready.sound hknown
    rw [Clause.isSpellable_statement, Statement.isSpellable, Expr.isSpellable, hsound.isName ht,
      hdeclared]
    exact hargs.isSpellable hsound.ofCall
  | nil => rfl
  | cons hfound hstatements ih ih' =>
    rw [Clause.calls, Statement.listCalls_append] at hready
    have hmiddle := List.Subset.trans hstatements.before_subset hknown
    -- and so are the other statements where those of the first one are
    have htail := ih' ((hready.behind hfound).mono (hright _ _) List.suffix_rfl) hknown
    rw [hfound.has_after] at htail
    rw [Clause.isSpellable, Statement.listIsSpellable_append, Bool.and_eq_true]
    exact ⟨ih (hready.mono (hleft _ _) List.suffix_rfl) hmiddle, htail⟩
  | block _ ih => exact ih hready hknown
  | jump htarget => exact htarget.isSpellable hready.allows
  | jumpBlock htarget _ ih =>
    have hsuffix := (afterSeparator_suffix _).trans htarget.suffix
    have hrest := ih (hready.mono (List.Subset.refl _) hsuffix) hknown
    rw [Clause.isSpellable, Branch.isSpellable, Statement.listIsSpellable, Bool.and_eq_true]
    refine ⟨htarget.isSpellable hready.allows, ?_⟩
    -- the implied jump declares nothing
    change Statement.listIsSpellable (Declarations.addedTo [] _) _ = true
    rw [Declarations.addedTo_nil]
    exact hrest

end Statements

/-- A program without a diagnostic can be written, if it calls no name that is declared before. -/
theorem listIsSpellable_of_isClean {bytes : List UInt8} (h : (parse bytes).isClean = true)
    (hcalls : ∀ call ∈ Statement.listCalls (parse bytes).program,
      ∀ d ∈ Statement.listDeclarations (parse bytes).program, d.1 = call.1 → ¬d.2.Before call.2) :
    Statement.listIsSpellable (fun _ => false) (parse bytes).program = true := by
  obtain ⟨body, finish, htokens, -, hsorted, hreading⟩ := exists_reading_of_isClean h
  refine hreading.isSpellable ⟨fun t ht => ?_, hsorted, .nil, hcalls⟩ ?_
  · exact allows_of_mem_tokenize bytes t (by rw [htokens]; exact List.mem_append_left _ ht)
  · rw [arrays_final_of_isClean h]
    exact fun d hd => List.mem_reverse.1 hd

end LineBasic
