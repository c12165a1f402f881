import LineBasic.Proofs.Declarations

/-!
# Calls of declared arrays

A name that an earlier `DIM` declares is that of an array, so it should not be called. A listing
without a diagnostic keeps to this unless a declared name stands in parentheses of its own before
a list: `(A)(2)` calls `A`. Grouping leaves no trace in an expression, so what extends the group
sees the plain name and does not look for a declaration.

There is no other way: the calls of names declared before are exactly the names that stand like
this (`filter_calls_of_isClean`).
-/

namespace LineBasic

/-! ## Calls of programs -/

mutual

/-- The calls in an expression: each name and where it stands, from left to right. -/
def Expr.calls : Expr → List (String × Location)
  | .var _ indices _ => Expr.listCalls indices
  | .int _ => []
  | .str _ _ => []
  | .unary _ operand _ => operand.calls
  | .binary _ left right _ => left.calls ++ right.calls
  | .call function arguments loc => (function, loc) :: Expr.listCalls arguments

/-- The calls in some expressions. -/
def Expr.listCalls : List Expr → List (String × Location)
  | [] => []
  | head :: tail => head.calls ++ Expr.listCalls tail

end

mutual

/-- The calls in an arm. -/
def Branch.calls : Branch → List (String × Location)
  | .goto _ => []
  | .block statements => Statement.listCalls statements

/-- The calls in an arm that may be missing. -/
def Branch.elseCalls : Option Branch → List (String × Location)
  | none => []
  | some branch => branch.calls

/-- The calls in a statement, itself included. -/
def Statement.calls : Statement → List (String × Location)
  | .lineNumber _ _ _ => []
  | .label _ _ => []
  | .dim _ _ => []
  | .cond condition consequence alternative _ =>
    condition.calls ++ consequence.calls ++ Branch.elseCalls alternative
  | .on value _ _ _ => value.calls
  | .goto _ _ => []
  | .gosub _ _ => []
  | .ret _ => []
  | .loop _ first last step body _ =>
    first.calls ++ last.calls ++ step.calls ++ Statement.listCalls body
  | .assign _ indices value _ => Expr.listCalls indices ++ value.calls
  | .call function arguments loc => (function, loc) :: Expr.listCalls arguments

/-- The calls in some statements. -/
def Statement.listCalls : List Statement → List (String × Location)
  | [] => []
  | head :: tail => head.calls ++ Statement.listCalls tail

end

/-- The calls in two lists are those of the one and those of the other. -/
theorem Statement.listCalls_append (left right : List Statement) :
    Statement.listCalls (left ++ right) =
      Statement.listCalls left ++ Statement.listCalls right := by
  induction left with
  | nil => rfl
  | cons head tail ih => rw [List.cons_append, listCalls, listCalls, ih, List.append_assoc]

/-- The calls in what the tokens of an expression read as. -/
def Phrase.calls : Phrase → List (String × Location)
  | expr expression => expression.calls
  | list expressions => Expr.listCalls expressions
  | arguments expressions => Expr.listCalls expressions

/-- The calls in what the tokens of statements read as. -/
def Clause.calls : Clause → List (String × Location)
  | statement found => Statement.listCalls found.toList
  | block statements => Statement.listCalls statements
  | branch _ arm => arm.calls

theorem Clause.calls_statement (statement : Statement) :
    (Clause.statement (some statement)).calls = statement.calls :=
  List.append_nil _

/-! ## Names in parentheses of their own -/

/-- Whether the tokens are closing parentheses, maybe none, and then an opening one. -/
def opensList : List Token → Bool
  | [] => false
  | t :: ts => if t.kind = .sym .rparen then opensList ts else t.kind = .sym .lparen

/-- Whether the tokens close a group, or several, and then open a list. -/
def closesGroup : List Token → Bool
  | [] => false
  | t :: ts => t.kind = .sym .rparen && opensList ts

/-- The names right before tokens that close a group and then open a list, and where they
stand. -/
def groupedNames : List Token → List (String × Location)
  | [] => []
  | t :: ts =>
    if t.kind = .ident ∧ closesGroup ts then (t.literal, t.loc) :: groupedNames ts
    else groupedNames ts

section Tokens

variable {t p : Token} {ts : List Token}

theorem opensList_cons :
    opensList (t :: ts) =
      if t.kind = .sym .rparen then opensList ts else decide (t.kind = .sym .lparen) := rfl

/-- The first parenthesis has to close a group, and an opening one has to come in the end. -/
theorem closesGroup_cons :
    closesGroup (t :: ts) = (decide (t.kind = .sym .rparen) && opensList ts) := rfl

/-- A name counts if a group ends behind it and a list comes next. -/
theorem groupedNames_cons :
    groupedNames (t :: ts) =
      if t.kind = .ident ∧ closesGroup ts then (t.literal, t.loc) :: groupedNames ts
      else groupedNames ts := rfl

/-- Closing parentheses do not matter for whether a list opens behind them. -/
theorem opensList_rparen (ht : t.kind = .sym .rparen) : opensList (t :: ts) = opensList ts := by
  rw [opensList_cons, if_pos ht]

theorem opensList_lparen (ht : t.kind = .sym .lparen) : opensList (t :: ts) = true := by
  rw [opensList_cons, if_neg (by rw [ht]; decide), ht]
  rfl

/-- Any token that is no parenthesis opens no list. -/
theorem not_opensList (ht : t.kind ≠ .sym .rparen) (ht' : t.kind ≠ .sym .lparen) :
    opensList (t :: ts) = false := by
  rw [opensList_cons, if_neg ht]
  exact decide_eq_false ht'

/-- A token of a kind that is no parenthesis opens no list. -/
theorem not_opensList_of_kind {kind : Token.Kind} (ht : t.kind = kind)
    (hkind : kind ≠ .sym .rparen ∧ kind ≠ .sym .lparen) :
    opensList (t :: ts) = false :=
  not_opensList (ht ▸ hkind.1) (ht ▸ hkind.2)

/-- Where a group closes before a list, a list opens. -/
theorem opensList_of_closesGroup (h : closesGroup ts = true) : opensList ts = true := by
  cases ts with
  | nil => cases h
  | cons t ts =>
    rw [closesGroup_cons, Bool.and_eq_true, decide_eq_true_eq] at h
    rw [opensList_rparen h.1, h.2]

/-- One more parenthesis that closes makes a group of it. -/
theorem closesGroup_rparen (ht : t.kind = .sym .rparen) (h : opensList ts = true) :
    closesGroup (t :: ts) = true := by
  rw [closesGroup_cons, h, Bool.and_true]
  exact decide_eq_true ht

theorem groupedNames_of_closesGroup (ht : t.kind = .ident) (h : closesGroup ts = true) :
    groupedNames (t :: ts) = (t.literal, t.loc) :: groupedNames ts := by
  rw [groupedNames_cons, if_pos ⟨ht, h⟩]

/-- A token before which no list opens counts for nothing. -/
theorem groupedNames_of_not_opensList (h : opensList ts = false) :
    groupedNames (t :: ts) = groupedNames ts := by
  rw [groupedNames_cons, if_neg]
  rintro ⟨-, hgroup⟩
  rw [opensList_of_closesGroup hgroup] at h
  cases h

/-- A token right before one that closes nothing counts for nothing. -/
theorem groupedNames_of_ne_rparen (hp : p.kind ≠ .sym .rparen) :
    groupedNames (t :: p :: ts) = groupedNames (p :: ts) := by
  rw [groupedNames_cons, if_neg]
  rintro ⟨-, hgroup⟩
  rw [closesGroup_cons, decide_eq_false hp] at hgroup
  cases hgroup

/-- A token that is no name counts for nothing. -/
theorem groupedNames_of_kind {kind : Token.Kind} (ht : t.kind = kind)
    (hkind : kind ≠ .ident) : groupedNames (t :: ts) = groupedNames ts := by
  rw [groupedNames_cons, if_neg]
  rintro ⟨hident, -⟩
  exact hkind (ht.symm.trans hident)

/-- The colon that ends a statement counts for nothing. -/
theorem groupedNames_afterSeparator (ts : List Token) :
    groupedNames (afterSeparator ts) = groupedNames ts := by
  cases ts with
  | nil => rfl
  | cons t ts =>
    rw [afterSeparator]
    split
    next ht => rw [groupedNames_of_kind ht (by decide)]
    next => rfl

/-- Whatever ends a statement before a list would open after it. -/
theorem not_opensList_of_afterSeparator (h : opensList (afterSeparator ts) = false) :
    opensList ts = false := by
  cases ts with
  | nil => rfl
  | cons t ts =>
    rw [afterSeparator] at h
    split at h
    next ht => exact not_opensList_of_kind ht (by decide)
    next => exact h

/-- The end of a listing closes nothing and opens nothing. -/
theorem groupedNames_append_endAt (finish : Location) :
    groupedNames (ts ++ [.endAt finish]) = groupedNames ts := by
  -- the end token is neither parenthesis, so it counts for no more than no token
  have hopens (ts : List Token) : opensList (ts ++ [.endAt finish]) = opensList ts := by
    induction ts with
    | nil => rfl
    | cons t ts ih => rw [List.cons_append, opensList_cons, opensList_cons, ih]
  have hcloses (ts : List Token) : closesGroup (ts ++ [.endAt finish]) = closesGroup ts := by
    cases ts with
    | nil => rfl
    | cons t ts => rw [List.cons_append, closesGroup_cons, closesGroup_cons, hopens]
  induction ts with
  | nil => rfl
  | cons t ts ih => rw [List.cons_append, groupedNames_cons, groupedNames_cons, hcloses, ih]

end Tokens

/-! ## Expressions -/

section Expressions

variable {declared : String → Bool} {ts us : List Token} {phrase : Phrase}

/-- Nothing that is read starts with a closing parenthesis. -/
theorem ExprReading.exists_first (h : ExprReading declared ts phrase us) :
    ∃ t rest, ts = t :: rest ∧ t.kind ≠ .sym .rparen := by
  induction h with
  | name ht | element ht | bareCall ht | call ht => exact ⟨_, _, rfl, by rw [ht]; decide⟩
  | groupedCall hp => exact ⟨_, _, rfl, by rw [hp]; decide⟩
  | int ht | str ht => exact ⟨_, _, rfl, by rw [ht]; decide⟩
  | grouped hp => exact ⟨_, _, rfl, by rw [hp]; decide⟩
  | unary ht =>
    refine ⟨_, _, rfl, fun hparen => ?_⟩
    rw [hparen] at ht
    -- no sign is a closing parenthesis
    cases ht
  | binary _ _ _ ih =>
    obtain ⟨t, rest, rfl, ht⟩ := ih
    exact ⟨t, rest, rfl, ht⟩
  | one _ ih => exact ih
  | cons _ _ _ ih =>
    obtain ⟨t, rest, rfl, ht⟩ := ih
    exact ⟨t, rest, rfl, ht⟩
  | noArguments hp | someArguments hp => exact ⟨_, _, rfl, by rw [hp]; decide⟩

/-- Arguments in parentheses open a list. -/
theorem ExprReading.opensList_of_arguments {args : List Expr}
    (h : ExprReading declared ts (.arguments args) us) : opensList ts = true := by
  cases h with
  | noArguments hp | someArguments hp => exact opensList_lparen hp

/-- A plain name in any number of parentheses, before tokens that close a further group. -/
theorem ExprReading.groupedNames_of_name {name : String} {loc : Location}
    (h : ExprReading declared ts (.expr (.var name [] loc)) us) (hus : closesGroup us = true) :
    groupedNames ts = (name, loc) :: groupedNames us := by
  generalize hphrase : Phrase.expr (.var name [] loc) = phrase at h
  induction h with
  | name ht =>
    cases hphrase
    exact groupedNames_of_closesGroup ht hus
  | element _ _ _ hindices =>
    -- an element has subscripts, so it is no plain name
    cases hphrase
    exact absurd rfl hindices.list_ne_nil
  | grouped hp _ hq ih =>
    -- one more parenthesis closes in front of those that close already
    have hgroup := closesGroup_rparen hq (opensList_of_closesGroup hus)
    rw [groupedNames_of_kind hp (by decide), ih hgroup hphrase, groupedNames_of_kind hq (by decide)]
  | _ => cases hphrase

/-- The tokens stand in order, and a name before the rest is not marked unless it is that of an
array. -/
structure Spares (marked : String × Location → Bool) (declared : String → Bool)
    (ts us : List Token) : Prop where
  sorted : ts.Pairwise fun first second => first.loc.Before second.loc
  spared : ∀ t ∈ ts, (∀ u ∈ us, t.loc.Before u.loc) → declared t.literal = false →
    marked (t.literal, t.loc) = false

variable {marked : String × Location → Bool}

/-- What is spared before more of the rest is spared before less of it. -/
theorem Spares.mono {ts' us' : List Token} (h : Spares marked declared ts us) (hts : ts' <:+ ts)
    (hus : us <:+ us') : Spares marked declared ts' us' :=
  ⟨h.sorted.sublist hts.sublist,
    fun t ht hlater => h.spared t (hts.mem ht) fun u hu => hlater u (hus.mem hu)⟩

theorem Spares.tail {t : Token} (h : Spares marked declared (t :: ts) us) :
    Spares marked declared ts us :=
  h.mono (List.suffix_cons t ts) List.suffix_rfl

/-- What is spared before the rest is spared before one token more. -/
theorem Spares.earlier {t : Token} (h : Spares marked declared ts us) :
    Spares marked declared ts (t :: us) :=
  h.mono List.suffix_rfl (List.suffix_cons t us)

/-- The first of the tokens is spared if it is not the name of an array. -/
theorem Spares.head {t : Token} (h : Spares marked declared (t :: ts) us) (hus : us <:+ ts)
    (hdeclared : declared t.literal = false) : marked (t.literal, t.loc) = false :=
  h.spared t List.mem_cons_self (fun _ hu => List.rel_of_pairwise_cons h.sorted (hus.mem hu))
    hdeclared

/-- A name that is not that of an array adds nothing before what is read as its arguments. -/
theorem ExprReading.filter_groupedNames_cons {t : Token} (h : ExprReading declared ts phrase us)
    (hspares : Spares marked declared (t :: ts) us) (hdeclared : declared t.literal = false)
    (hcalls : (groupedNames ts).filter marked =
      phrase.calls.filter marked ++ (groupedNames us).filter marked) :
    (groupedNames (t :: ts)).filter marked =
      ((t.literal, t.loc) :: phrase.calls).filter marked ++ (groupedNames us).filter marked := by
  -- as a call it is not marked, and no group closes right behind it
  have hmarked := hspares.head h.suffix hdeclared
  obtain ⟨first, rest, rfl, hfirst⟩ := h.exists_first
  rw [groupedNames_of_ne_rparen hfirst, hcalls, List.filter_cons, hmarked]
  rfl

/-- The marked calls in what is read are the marked names in parentheses of their own, as long as
no list opens behind it. -/
theorem ExprReading.filter_groupedNames (h : ExprReading declared ts phrase us)
    (hspares : Spares marked declared ts us) (hus : opensList us = false) :
    (groupedNames ts).filter marked =
      phrase.calls.filter marked ++ (groupedNames us).filter marked := by
  -- along the reading: each token but a name leaves `groupedNames` as it is, and a name only
  -- counts where a list opens behind it, which its own closing parenthesis hides
  induction h with
  | name =>
    rw [groupedNames_of_not_opensList hus]
    rfl
  | element ht _ hp _ hq ih =>
    have ih := ih hspares.tail.tail.earlier (by rwa [opensList_rparen hq])
    rw [groupedNames_of_ne_rparen (by rw [hp]; decide), groupedNames_of_kind hp (by decide), ih,
      groupedNames_of_kind hq (by decide)]
    rfl
  | bareCall _ hdeclared hargs ih | call _ hdeclared hargs ih =>
    exact hargs.filter_groupedNames_cons hspares hdeclared (ih hspares.tail hus)
  | groupedCall hp hname hq hargs _ ih =>
    -- the name is on both sides, whether or not it is that of an array
    have hgroup := closesGroup_rparen hq hargs.opensList_of_arguments
    have ih := ih (hspares.tail.mono hname.suffix List.suffix_rfl).tail hus
    rw [groupedNames_of_kind hp (by decide), hname.groupedNames_of_name hgroup,
      groupedNames_of_kind hq (by decide), List.filter_cons, ih, Phrase.calls, Expr.calls,
      List.filter_cons]
    split <;> rfl
  | int ht | str ht =>
    rw [groupedNames_of_kind ht (by decide)]
    rfl
  | grouped hp _ hq ih =>
    have ih := ih hspares.tail.earlier (by rwa [opensList_rparen hq])
    rw [groupedNames_of_kind hp (by decide), ih, groupedNames_of_kind hq (by decide)]
  | @unary t _ _ _ _ ht _ ih =>
    have hkind : t.kind ≠ .ident := by
      intro hkind
      rw [hkind] at ht
      cases ht
    rw [groupedNames_of_kind rfl hkind, ih hspares.tail hus]
    rfl
  | @binary t _ _ _ _ _ _ hleft ht hright ih ih' =>
    -- the operator stands between the operands, so no list opens behind the left one
    have hkind : t.kind ≠ .ident ∧ t.kind ≠ .sym .rparen ∧ t.kind ≠ .sym .lparen := by
      refine ⟨?_, ?_, ?_⟩ <;> intro hkind <;> rw [hkind] at ht <;> cases ht
    have ih := ih (hspares.mono List.suffix_rfl hright.suffix).earlier
      (not_opensList hkind.2.1 hkind.2.2)
    have ih' := ih' (hspares.mono hleft.suffix List.suffix_rfl).tail hus
    rw [ih, groupedNames_of_kind rfl hkind.1, ih', ← List.append_assoc, ← List.filter_append]
    rfl
  | one _ ih =>
    rw [ih hspares hus, Phrase.calls, Phrase.calls, Expr.listCalls, Expr.listCalls, List.append_nil]
  | cons he ht hes ih ih' =>
    have ih := ih (hspares.mono List.suffix_rfl hes.suffix).earlier
      (not_opensList_of_kind ht (by decide))
    have ih' := ih' (hspares.mono he.suffix List.suffix_rfl).tail hus
    rw [ih, groupedNames_of_kind ht (by decide), ih', ← List.append_assoc, ← List.filter_append]
    rfl
  | noArguments hp hq =>
    rw [groupedNames_of_kind hp (by decide), groupedNames_of_kind hq (by decide)]
    rfl
  | someArguments hp _ hq ih =>
    have ih := ih hspares.tail.earlier (by rwa [opensList_rparen hq])
    rw [groupedNames_of_kind hp (by decide), ih, groupedNames_of_kind hq (by decide)]
    rfl

end Expressions

/-! ## Statements -/

section Parts

variable {declared : String → Bool} {marked : String × Location → Bool} {ts us : List Token}

/-- The label of a jump counts for nothing, even if it is a name. -/
theorem TargetReading.groupedNames_eq {target : JumpTarget} (h : TargetReading ts target us)
    (hus : opensList us = false) : groupedNames ts = groupedNames us := by
  cases h with
  | number => exact groupedNames_of_not_opensList hus
  | label ht => rw [groupedNames_of_kind ht (by decide), groupedNames_of_not_opensList hus]

/-- A list with commas counts for nothing if its items do not. -/
theorem CommaReading.groupedNames_eq {α : Type} {item : List Token → α → List Token → Prop}
    (hitem : ∀ ts value us, item ts value us → opensList us = false →
      groupedNames ts = groupedNames us) {values : List α} (h : CommaReading item ts values us)
    (hus : opensList us = false) : groupedNames ts = groupedNames us := by
  induction h with
  | one hvalue => exact hitem _ _ _ hvalue hus
  | cons hvalue ht _ ih =>
    rw [hitem _ _ _ hvalue (not_opensList_of_kind ht (by decide)),
      groupedNames_of_kind ht (by decide), ih hus]

/-- The size of an array counts for nothing. -/
theorem SizeReading.groupedNames_eq {size : IntLit} (h : SizeReading ts size us) :
    groupedNames ts = groupedNames us := by
  cases h with
  | int ht => exact groupedNames_of_kind ht (by decide)

/-- The declaration of an array counts for nothing. -/
theorem DeclReading.groupedNames_eq {array : ArrayDecl} (h : DeclReading ts array us)
    (hus : opensList us = false) : groupedNames ts = groupedNames us := by
  cases h with
  | array _ hp hsizes hq =>
    have hsizes := hsizes.groupedNames_eq (fun _ _ _ hsize _ => hsize.groupedNames_eq)
      (by rwa [opensList_rparen hq])
    rw [groupedNames_of_ne_rparen (by rw [hp]; decide), groupedNames_of_kind hp (by decide), hsizes,
      groupedNames_of_kind hq (by decide)]

/-- The end of a loop counts for nothing, even if it names the counter. -/
theorem LoopEndReading.groupedNames_eq (h : LoopEndReading ts us) (hus : opensList us = false) :
    groupedNames ts = groupedNames us := by
  cases h with
  | named ht =>
    rw [groupedNames_of_kind ht (by decide),
      groupedNames_of_not_opensList (not_opensList_of_afterSeparator hus),
      groupedNames_afterSeparator]
  | bare ht => rw [groupedNames_of_kind ht (by decide), groupedNames_afterSeparator]

/-- The end of the head of a loop counts for nothing. -/
theorem HeadEndReading.groupedNames_eq (h : HeadEndReading ts us) :
    groupedNames ts = groupedNames us := by
  cases h with
  | colon ht => exact groupedNames_of_kind ht (by decide)
  | line => rfl

theorem LoopEndReading.not_opensList (h : LoopEndReading ts us) : opensList ts = false := by
  cases h with
  | named ht | bare ht => exact not_opensList_of_kind ht (by decide)

theorem HeadEndReading.not_opensList (h : HeadEndReading ts us) : opensList ts = false := by
  cases h with
  | colon ht | line ht => exact not_opensList_of_kind ht (by decide)

/-- The marked calls in the step of a loop are the marked names in parentheses of their own, and no
list opens where the step starts. -/
theorem StepReading.filter_groupedNames {loc : Location} {step : Expr}
    (h : StepReading declared loc ts step us) (hspares : Spares marked declared ts us)
    (hus : opensList us = false) :
    opensList ts = false ∧ (groupedNames ts).filter marked =
      step.calls.filter marked ++ (groupedNames us).filter marked := by
  cases h with
  | given ht hstep =>
    refine ⟨not_opensList_of_kind ht (by decide), ?_⟩
    rw [groupedNames_of_kind ht (by decide)]
    exact hstep.filter_groupedNames hspares.tail hus
  | default => exact ⟨hus, rfl⟩

/-- The marked calls in the head of a loop are the marked names in parentheses of their own. -/
theorem HeadReading.filter_groupedNames {loc : Location} {counter : String}
    {first last step : Expr} (h : HeadReading declared loc ts counter first last step us)
    (hspares : Spares marked declared ts us) :
    (groupedNames ts).filter marked =
      (first.calls ++ last.calls ++ step.calls).filter marked ++
        (groupedNames us).filter marked := by
  cases h with
  | head hn he hfirst ho hlast hstep hend =>
    -- from the back, since each part needs that no list opens behind it
    have hrest := hspares.tail.tail.mono hfirst.suffix List.suffix_rfl
    have hopen := hend.not_opensList
    have hstep' := hstep.filter_groupedNames
      (hrest.tail.mono hlast.suffix hend.suffix) hopen
    have hlast' := hlast.filter_groupedNames
      (hrest.tail.mono List.suffix_rfl (hend.suffix.trans hstep.suffix)) hstep'.1
    have hfirst' := hfirst.filter_groupedNames
      (hspares.tail.tail.mono List.suffix_rfl
        (hend.suffix.trans (hstep.suffix.trans hlast.suffix))).earlier
      (not_opensList_of_kind ho (by decide))
    rw [groupedNames_of_ne_rparen (by rw [he]; decide), groupedNames_of_kind he (by decide),
      hfirst', groupedNames_of_kind ho (by decide), hlast', hstep'.2, hend.groupedNames_eq]
    simp [Phrase.calls]

end Parts

section Statements

variable {before after : Declarations} {ts us : List Token} {clause : Clause}

/-- Each of the declarations stands at one of the tokens. -/
def Declarations.StandIn (declarations : Declarations) (ts : List Token) : Prop :=
  ∀ d ∈ declarations, ∃ t ∈ ts, t.loc = d.2

namespace Declarations.StandIn

variable {left right : Declarations}

theorem nil : StandIn [] ts := by
  intro d hd
  cases hd

/-- Declarations in two lists stand at tokens if those of each list do. -/
theorem append (hleft : StandIn left ts) (hright : StandIn right ts) :
    StandIn (left ++ right) ts := by
  intro d hd
  rcases List.mem_append.1 hd with hd | hd
  · exact hleft d hd
  · exact hright d hd

/-- Declarations that stand at some tokens stand at more. -/
theorem mono (h : StandIn left us) (hsuffix : us <:+ ts) : StandIn left ts := by
  intro d hd
  obtain ⟨t, ht, hloc⟩ := h d hd
  exact ⟨t, hsuffix.mem ht, hloc⟩

end Declarations.StandIn

open Declarations (StandIn)

/-- The arrays of a `DIM` stand at its tokens. -/
theorem CommaReading.standIn {arrays : List ArrayDecl}
    (h : CommaReading DeclReading ts arrays us) : StandIn (arrays.map ArrayDecl.entry) ts := by
  have hfirst {ts us : List Token} {array : ArrayDecl} (h : DeclReading ts array us) :
      StandIn [array.entry] ts := by
    intro d hd
    cases List.mem_singleton.1 hd
    cases h
    exact ⟨_, List.mem_cons_self, rfl⟩
  induction h with
  | one hvalue => exact hfirst hvalue
  | cons hvalue _ _ ih =>
    exact (hfirst hvalue).append (ih.mono ((List.suffix_cons _ _).trans hvalue.suffix))

/-- What is declared stands at the tokens that are read. -/
theorem Reading.standIn (h : Reading before ts clause after us) :
    StandIn clause.declarations ts := by
  have hcons := fun (t : Token) (ts : List Token) => List.suffix_cons t ts
  induction h with
  | dim _ hdeclared =>
    rw [Clause.declarations_statement]
    exact hdeclared.standIn.mono (hcons _ _)
  | cond _ hcondition _ _ ih =>
    rw [Clause.declarations_statement]
    exact (ih.mono ((hcons _ _).trans (hcondition.suffix.trans (hcons _ _)))).append .nil
  | condElse _ hcondition _ hconsequence _ _ ih ih' =>
    rw [Clause.declarations_statement]
    exact (ih.append (ih'.mono ((hcons _ _).trans hconsequence.suffix))).mono
      ((hcons _ _).trans (hcondition.suffix.trans (hcons _ _)))
  | loop _ hhead _ _ ih =>
    rw [Clause.declarations_statement]
    exact ih.mono (hhead.suffix.trans (hcons _ _))
  | cons hfound _ ih ih' =>
    rw [Clause.declarations, Statement.listDeclarations_append]
    exact ih.append (ih'.mono hfound.suffix)
  | block _ ih => exact ih
  | jump => exact .nil
  | jumpBlock htarget _ ih => exact ih.mono ((afterSeparator_suffix _).trans htarget.suffix)
  | _ => exact .nil

/-- No statement starts with a parenthesis. -/
theorem Reading.not_opensList (h : Reading before ts clause after us)
    (hus : opensList us = false) : opensList ts = false := by
  have htarget {ts us : List Token} {target : JumpTarget} (h : TargetReading ts target us) :
      opensList ts = false := by
    cases h with
    | number ht | label ht => exact not_opensList_of_kind ht (by decide)
  induction h with
  | nil => exact hus
  | cons _ _ ih ih' => exact ih (ih' hus)
  | block _ ih => exact ih hus
  | jump h | jumpBlock h => exact htarget h
  | remark ht | empty ht | lineNumber ht | dataLine ht | label ht | dim ht | cond ht | condElse ht
  | on ht | goto ht | gosub ht | ret ht | loop ht | assign ht | assignElement ht | plainCall ht
  | call ht | bareCall ht => exact not_opensList_of_kind ht (by decide)

/-- Whether a name is declared before the place where it stands. -/
def Declarations.isBefore (declarations : Declarations) (name : String × Location) : Bool :=
  declarations.any fun d => d.1 == name.1 && decide (d.2.Before name.2)

/-- A name is not declared before a place if none of its declarations stands before it. -/
theorem Declarations.not_isBefore_iff {declarations : Declarations} {name : String × Location} :
    ¬declarations.isBefore name = true ↔
      ∀ d ∈ declarations, d.1 = name.1 → ¬d.2.Before name.2 := by
  rw [isBefore, List.any_eq_true, not_exists]
  refine forall_congr' fun d => ?_
  rw [not_and, Bool.and_eq_true, beq_iff_eq, decide_eq_true_eq, not_and]

/-- Each of the declarations has been read, or it stands at one of the tokens to come. -/
def Declarations.Known (all read : Declarations) (us : List Token) : Prop :=
  ∀ d ∈ all, d ∈ read ∨ ∃ t ∈ us, t.loc = d.2

namespace Declarations.Known

variable {all read : Declarations}

/-- Declarations to come among some tokens are to come among more. -/
theorem mono (h : Known all read us) (hsuffix : us <:+ ts) : Known all read ts := by
  intro d hd
  rcases h d hd with hread | ⟨t, ht, hloc⟩
  · exact .inl hread
  · exact .inr ⟨t, hsuffix.mem ht, hloc⟩

/-- Before a clause is read, what it declares is still to come. -/
theorem of_reading (h : Known all after us) (hreading : Reading before ts clause after us) :
    Known all before ts := by
  intro d hd
  rcases h d hd with hread | ⟨t, ht, hloc⟩
  · rw [hreading.after_eq, List.mem_append, List.mem_reverse] at hread
    rcases hread with hread | hread
    · exact .inr (hreading.standIn d hread)
    · exact .inl hread
  · exact .inr ⟨t, hreading.suffix.mem ht, hloc⟩

/-- A name with an earlier declaration is that of an array when it is read, since the
declarations to come stand behind it. -/
theorem spares (h : Known all read us)
    (hsorted : ts.Pairwise fun first second => first.loc.Before second.loc) :
    Spares all.isBefore read.has ts us := by
  refine ⟨hsorted, fun t _ hlater hdeclared => ?_⟩
  rw [← Bool.not_eq_true, not_isBefore_iff]
  intro d hd hname hplace
  rcases h d hd with hread | ⟨u, hu, hloc⟩
  · -- the declaration has been read: the name would be that of an array
    have hhas : read.has d.1 = true := has_iff.2 ⟨d.2, hread⟩
    rw [hname, hdeclared] at hhas
    cases hhas
  · -- the declaration is to come: it would stand behind the name
    exact (hlater u hu).asymm (hloc ▸ hplace)

end Declarations.Known

open Declarations (Known)

/-- The calls of names declared before are the names in parentheses of their own that are declared
before, as long as no list opens behind what is read. -/
theorem Reading.filter_groupedNames {all : Declarations} (h : Reading before ts clause after us)
    (hknown : Known all after us)
    (hsorted : ts.Pairwise fun first second => first.loc.Before second.loc)
    (hus : opensList us = false) :
    (groupedNames ts).filter all.isBefore =
      clause.calls.filter all.isBefore ++ (groupedNames us).filter all.isBefore := by
  have hsep := afterSeparator_suffix
  -- along the reading: `hknown` is moved back over each part in turn, so that at every
  -- expression the declarations still to come are known to stand behind it
  induction h with
  | remark ht =>
    rw [groupedNames_of_kind ht (by decide), groupedNames_afterSeparator]
    rfl
  | empty ht | lineNumber ht =>
    rw [groupedNames_of_kind ht (by decide)]
    rfl
  | dataLine ht hd =>
    rw [groupedNames_of_kind ht (by decide), groupedNames_of_kind hd (by decide),
      groupedNames_afterSeparator]
    rfl
  | label ht hn =>
    -- the name of a label is a name too, but nothing closes behind it
    rw [groupedNames_of_kind ht (by decide),
      groupedNames_of_not_opensList (not_opensList_of_afterSeparator hus),
      groupedNames_afterSeparator]
    rfl
  | dim ht hdeclared =>
    have hdeclared := hdeclared.groupedNames_eq (fun _ _ _ => DeclReading.groupedNames_eq)
      (not_opensList_of_afterSeparator hus)
    rw [groupedNames_of_kind ht (by decide), hdeclared, groupedNames_afterSeparator]
    rfl
  | @cond _ _ _ u _ _ _ _ _ ht hcondition hu hconsequence ih =>
    have hrest := hsorted.of_cons.sublist hcondition.suffix.sublist
    have hknown' := (hknown.of_reading hconsequence).mono (List.suffix_cons u _)
    have hcalls := hcondition.filter_groupedNames (hknown'.spares hsorted.of_cons)
      (not_opensList_of_kind hu (by decide))
    rw [groupedNames_of_kind ht (by decide), hcalls, groupedNames_of_kind hu (by decide),
      ih hknown hrest.of_cons hus, Clause.calls_statement]
    simp [Statement.calls, Phrase.calls, Clause.calls, Branch.elseCalls]
  | @condElse _ _ _ _ u v _ _ _ _ _ _ _ ht hcondition hu hconsequence hv halternative ih ih' =>
    have hrest := (hsorted.of_cons.sublist hcondition.suffix.sublist).of_cons
    have hrest' := (hrest.sublist hconsequence.suffix.sublist).of_cons
    have hmiddle := (hknown.of_reading halternative).mono (List.suffix_cons v _)
    have hknown' := (hmiddle.of_reading hconsequence).mono (List.suffix_cons u _)
    have hcalls := hcondition.filter_groupedNames (hknown'.spares hsorted.of_cons)
      (not_opensList_of_kind hu (by decide))
    rw [groupedNames_of_kind ht (by decide), hcalls, groupedNames_of_kind hu (by decide),
      ih hmiddle hrest (not_opensList_of_kind hv (by decide)),
      groupedNames_of_kind hv (by decide), ih' hknown hrest' hus, Clause.calls_statement]
    simp [Statement.calls, Phrase.calls, Clause.calls, Branch.elseCalls]
  | @on _ _ j _ _ _ _ _ _ ht hvalue hj htargets =>
    have hsuffix := htargets.suffix fun _ _ _ => TargetReading.suffix
    have hknown' := hknown.mono ((hsep _).trans (hsuffix.trans (List.suffix_cons j _)))
    -- `j` is `GOTO` or `GOSUB`: it ends the value and is not a name
    have hj' : j.kind ≠ .ident ∧ j.kind ≠ .sym .rparen ∧ j.kind ≠ .sym .lparen := by
      rw [hj]
      exact ⟨Token.Kind.noConfusion, Token.Kind.noConfusion, Token.Kind.noConfusion⟩
    have hcalls := hvalue.filter_groupedNames (hknown'.spares hsorted.of_cons)
      (LineBasic.not_opensList hj'.2.1 hj'.2.2)
    have htargets := htargets.groupedNames_eq (fun _ _ _ => TargetReading.groupedNames_eq)
      (not_opensList_of_afterSeparator hus)
    rw [groupedNames_of_kind ht (by decide), hcalls, groupedNames_of_kind rfl hj'.1, htargets,
      groupedNames_afterSeparator, Clause.calls_statement]
    rfl
  | goto ht htarget | gosub ht htarget =>
    have htarget := htarget.groupedNames_eq (not_opensList_of_afterSeparator hus)
    rw [groupedNames_of_kind ht (by decide), htarget, groupedNames_afterSeparator]
    rfl
  | ret ht =>
    rw [groupedNames_of_kind ht (by decide), groupedNames_afterSeparator]
    rfl
  | loop ht hhead hbody hend ih =>
    have hrest := hsorted.of_cons.sublist hhead.suffix.sublist
    have hbody' := hknown.mono hend.suffix
    have hcalls := hhead.filter_groupedNames ((hbody'.of_reading hbody).spares hsorted.of_cons)
    rw [groupedNames_of_kind ht (by decide), hcalls, ih hbody' hrest hend.not_opensList,
      hend.groupedNames_eq hus, Clause.calls_statement]
    simp [Statement.calls, Clause.calls]
  | assign ht he hvalue =>
    -- the target is a name before `=`, so it is not in parentheses
    have hspares := (hknown.mono (hsep _)).spares hsorted.of_cons.of_cons
    have hcalls := hvalue.filter_groupedNames hspares (not_opensList_of_afterSeparator hus)
    rw [groupedNames_of_ne_rparen (by rw [he]; decide), groupedNames_of_kind he (by decide), hcalls,
      groupedNames_afterSeparator, Clause.calls_statement]
    rfl
  | @assignElement _ _ _ q e _ _ _ _ _ ht hdeclared hp hindices hq he hvalue =>
    have hrest := hsorted.of_cons.of_cons
    have hrest' := (hrest.sublist hindices.suffix.sublist).of_cons.of_cons
    have hknown' := hknown.mono (hsep _)
    have hindices' := hindices.filter_groupedNames
      ((hknown'.mono (hvalue.suffix.trans
        ((List.suffix_cons e _).trans (List.suffix_cons q _)))).spares hrest)
      (by rw [opensList_rparen hq]; exact not_opensList_of_kind he (by decide))
    have hvalue' := hvalue.filter_groupedNames (hknown'.spares hrest')
      (not_opensList_of_afterSeparator hus)
    rw [groupedNames_of_ne_rparen (by rw [hp]; decide), groupedNames_of_kind hp (by decide),
      hindices', groupedNames_of_kind hq (by decide), groupedNames_of_kind he (by decide), hvalue',
      groupedNames_afterSeparator, Clause.calls_statement]
    simp [Statement.calls, Phrase.calls]
  | plainCall ht hdeclared =>
    -- a statement calls a name only if it is not that of an array: neither side has it
    have hmarked := ((hknown.mono (hsep _)).spares hsorted).head List.suffix_rfl hdeclared
    rw [groupedNames_of_not_opensList (not_opensList_of_afterSeparator hus),
      groupedNames_afterSeparator, Clause.calls_statement, Statement.calls, List.filter_cons,
      hmarked]
    rfl
  | call ht hdeclared hargs | bareCall ht hdeclared hargs =>
    have hspares := (hknown.mono (hsep _)).spares hsorted
    have hcalls := hargs.filter_groupedNames hspares.tail (not_opensList_of_afterSeparator hus)
    rw [hargs.filter_groupedNames_cons hspares hdeclared hcalls, groupedNames_afterSeparator,
      Clause.calls_statement]
    rfl
  | nil => rfl
  | cons hfound hstatements ih ih' =>
    have hrest := hsorted.sublist hfound.suffix.sublist
    have hopen := hstatements.not_opensList hus
    rw [ih (hknown.of_reading hstatements) hsorted hopen, ih' hknown hrest hus, Clause.calls,
      Clause.calls, Clause.calls, Statement.listCalls_append, List.filter_append, List.append_assoc]
  | block _ ih => exact ih hknown hsorted hus
  | jump htarget hrest ih | jumpBlock htarget hrest ih =>
    have hsuffix := (hsep _).trans htarget.suffix
    have hopen := not_opensList_of_afterSeparator (hrest.not_opensList hus)
    rw [htarget.groupedNames_eq hopen, ← groupedNames_afterSeparator,
      ih hknown (hsorted.sublist hsuffix.sublist) hus]
    rfl

end Statements

/-! ## Listings -/

/-- In a listing without a diagnostic, the calls of names declared before are the names declared
before that stand in parentheses of their own and have a list behind them. -/
theorem filter_calls_of_isClean {bytes : List UInt8} (h : (parse bytes).isClean = true) :
    (Statement.listCalls (parse bytes).program).filter
        (Statement.listDeclarations (parse bytes).program).isBefore =
      (groupedNames (tokenize bytes)).filter
        (Statement.listDeclarations (parse bytes).program).isBefore := by
  obtain ⟨body, finish, htokens, -, hsorted, hreading⟩ := exists_reading_of_isClean h
  -- at the end of the listing every declaration of the program has been read
  have hknown : Declarations.Known (Statement.listDeclarations (parse bytes).program)
      (parse bytes).final.arrays [] := by
    intro d hd
    rw [arrays_final_of_isClean h]
    exact .inl (List.mem_reverse.2 hd)
  rw [htokens, groupedNames_append_endAt, hreading.filter_groupedNames hknown hsorted rfl]
  exact (List.append_nil _).symm

/-- A listing without a diagnostic calls no name that is declared before, if and only if no name
that is declared before stands in parentheses of its own with a list behind them. -/
theorem declared_never_called_iff (bytes : List UInt8) (h : (parse bytes).isClean = true) :
    (∀ call ∈ Statement.listCalls (parse bytes).program,
        ∀ d ∈ Statement.listDeclarations (parse bytes).program,
          d.1 = call.1 → ¬d.2.Before call.2) ↔
      ∀ name ∈ groupedNames (tokenize bytes),
        ∀ d ∈ Statement.listDeclarations (parse bytes).program,
          d.1 = name.1 → ¬d.2.Before name.2 := by
  -- both sides say that no name of a list is declared before
  have hiff (names : List (String × Location)) :
      (∀ name ∈ names, ∀ d ∈ Statement.listDeclarations (parse bytes).program,
          d.1 = name.1 → ¬d.2.Before name.2) ↔
        names.filter (Statement.listDeclarations (parse bytes).program).isBefore = [] := by
    rw [List.filter_eq_nil_iff]
    exact forall₂_congr fun name _ => Declarations.not_isBefore_iff.symm
  rw [hiff, hiff, filter_calls_of_isClean h]

/-- The theorem at a listing that uses an array and a function in all ways but that one. -/
theorem declared_never_called_plain :
    (parse (Utf8.encode "10 DIM A(3)\n20 A(1) = F((A), A(2)) + (A(F 2))")).isClean = true ∧
      ∀ call ∈ Statement.listCalls
          (parse (Utf8.encode "10 DIM A(3)\n20 A(1) = F((A), A(2)) + (A(F 2))")).program,
        ∀ d ∈ Statement.listDeclarations
            (parse (Utf8.encode "10 DIM A(3)\n20 A(1) = F((A), A(2)) + (A(F 2))")).program,
          d.1 = call.1 → ¬d.2.Before call.2 := by
  have hclean :
      (parse (Utf8.encode "10 DIM A(3)\n20 A(1) = F((A), A(2)) + (A(F 2))")).isClean = true := by
    decide +kernel
  exact ⟨hclean, (declared_never_called_iff _ hclean).2 (by decide +kernel)⟩

/-- An array in parentheses of its own is called. -/
theorem declared_called_in_group :
    (parse (Utf8.encode "5 DIM A(3)\n10 X = (A)(2)")).isClean = true ∧
      ¬∀ call ∈ Statement.listCalls (parse (Utf8.encode "5 DIM A(3)\n10 X = (A)(2)")).program,
        ∀ d ∈ Statement.listDeclarations
            (parse (Utf8.encode "5 DIM A(3)\n10 X = (A)(2)")).program,
          d.1 = call.1 → ¬d.2.Before call.2 := by
  decide +kernel

end LineBasic
