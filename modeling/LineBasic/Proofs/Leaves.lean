import LineBasic.Proofs.Grammar.Soundness

/-!
# Leaves of programs

The names, numbers, strings and data of a listing are the leaves of its program, from left to
right: a parse that records no diagnostic loses none of them, doubles none and keeps their
order (`tokenLeaves_tokenize`). The name after `NEXT` is the one exception, since the program
does not keep it.

The step of a loop without `STEP` is an integer at the place of the loop. It has no leaf. Every
other step stands behind the loop, because the places of tokens increase.
-/

namespace LineBasic

/-! ## Leaves of tokens -/

/-- The literal of a token that becomes a leaf: a line number, a name, a number, a string or
data. -/
def Token.leaf (token : Token) : List String :=
  match token.kind with
  | .lineNo => [token.literal]
  | .ident => [token.literal]
  | .num => [token.literal]
  | .str => [token.literal]
  | .word .data => [token.literal]
  | _ => []

/-- The leaves of some tokens. A name right after `NEXT` is left out. -/
def tokenLeaves : List Token → List String
  | [] => []
  | [token] => token.leaf
  | token :: next :: rest =>
    if token.kind = .word .next ∧ next.kind = .ident then tokenLeaves rest
    else token.leaf ++ tokenLeaves (next :: rest)

/-! ## Leaves of programs -/

mutual

/-- The leaves of an expression. -/
def Expr.leaves : Expr → List String
  | .var name indices _ => name :: Expr.listLeaves indices
  | .int literal => [literal.literal]
  | .str text _ => [text]
  | .unary _ operand _ => operand.leaves
  | .binary _ left right _ => left.leaves ++ right.leaves
  | .call function arguments _ => function :: Expr.listLeaves arguments

/-- The leaves of some expressions. -/
def Expr.listLeaves : List Expr → List String
  | [] => []
  | head :: tail => head.leaves ++ Expr.listLeaves tail

end

/-- The leaves of the step of a loop. A step that stands where the loop does was not
written. -/
def Expr.stepLeaves (step : Expr) (loc : Location) : List String :=
  if step.loc = loc then [] else step.leaves

/-- The leaves of an array of a declaration. -/
def ArrayDecl.leaves (array : ArrayDecl) : List String :=
  array.name :: array.sizes.map (·.literal)

mutual

/-- The leaves of an arm. -/
def Branch.leaves : Branch → List String
  | .goto target => [target.name]
  | .block statements => Statement.listLeaves statements

/-- The leaves of a second arm, if there is one. -/
def Branch.elseLeaves : Option Branch → List String
  | none => []
  | some branch => branch.leaves

/-- The leaves of a statement. -/
def Statement.leaves : Statement → List String
  | .lineNumber name data _ => name :: (data.map (·.value)).toList
  | .label name _ => [name]
  | .dim arrays _ => arrays.flatMap (·.leaves)
  | .cond condition consequence alternative _ =>
    condition.leaves ++ consequence.leaves ++ Branch.elseLeaves alternative
  | .on value _ targets _ => value.leaves ++ targets.map (·.name)
  | .goto target _ => [target.name]
  | .gosub target _ => [target.name]
  | .ret _ => []
  | .loop counter first last step body loc =>
    counter :: (first.leaves ++ last.leaves ++ step.stepLeaves loc ++ Statement.listLeaves body)
  | .assign name indices value _ => name :: (Expr.listLeaves indices ++ value.leaves)
  | .call function arguments _ => function :: Expr.listLeaves arguments

/-- The leaves of some statements. -/
def Statement.listLeaves : List Statement → List String
  | [] => []
  | head :: tail => head.leaves ++ Statement.listLeaves tail

end

/-- The leaves of what the tokens of an expression read as. -/
def Phrase.leaves : Phrase → List String
  | expr expression => expression.leaves
  | list expressions => Expr.listLeaves expressions
  | arguments expressions => Expr.listLeaves expressions

/-- The leaves of what the tokens of statements read as. -/
def Clause.leaves : Clause → List String
  | statement found => Statement.listLeaves found.toList
  | block statements => Statement.listLeaves statements
  | branch _ arm => arm.leaves

/-! ## Token by token -/

section Tokens

variable {t n : Token} {ts : List Token}

theorem tokenLeaves_cons (ht : t.kind ≠ .word .next) :
    tokenLeaves (t :: ts) = t.leaf ++ tokenLeaves ts := by
  cases ts with
  | nil => simp [tokenLeaves]
  | cons next rest => simp [tokenLeaves, ht]

/-- The counter behind a `NEXT` repeats that of the loop and is left out. -/
theorem tokenLeaves_named_next (ht : t.kind = .word .next) (hn : n.kind = .ident) :
    tokenLeaves (t :: n :: ts) = tokenLeaves ts := by
  rw [tokenLeaves, if_pos ⟨ht, hn⟩]

/-- A `NEXT` without a counter has no leaves. -/
theorem tokenLeaves_bare_next (ht : t.kind = .word .next)
    (hts : ∀ n ∈ ts.head?, n.kind ≠ .ident) : tokenLeaves (t :: ts) = tokenLeaves ts := by
  have hleaf : t.leaf = [] := by rw [Token.leaf, ht]
  cases ts with
  | nil => exact hleaf
  | cons next rest =>
    have hnext : ¬(t.kind = .word .next ∧ next.kind = .ident) :=
      fun h => hts next rfl h.2
    rw [tokenLeaves, if_neg hnext, hleaf, List.nil_append]

/-- Whether the tokens of a kind become leaves. -/
def Token.Kind.isLeaf : Token.Kind → Bool
  | .lineNo => true
  | .ident => true
  | .num => true
  | .str => true
  | .word .data => true
  | _ => false

/-- A name or a number contributes its literal. -/
theorem Token.leaf_of_isLeaf (ht : t.kind.isLeaf = true) : t.leaf = [t.literal] := by
  obtain ⟨kind, literal, loc⟩ := t
  cases kind with
  | word keyword => cases keyword <;> first | rfl | cases ht
  | _ => first | rfl | cases ht

/-- A keyword or a symbol contributes nothing. -/
theorem Token.leaf_of_not_isLeaf (ht : t.kind.isLeaf = false) : t.leaf = [] := by
  obtain ⟨kind, literal, loc⟩ := t
  cases kind with
  | word keyword => cases keyword <;> first | rfl | cases ht
  | _ => first | rfl | cases ht

/-- A token of a kind that is no leaf adds none. -/
theorem tokenLeaves_skip {kind : Token.Kind} (ht : t.kind = kind)
    (hkind : kind ≠ .word .next ∧ kind.isLeaf = false) :
    tokenLeaves (t :: ts) = tokenLeaves ts := by
  subst ht
  rw [tokenLeaves_cons hkind.1, Token.leaf_of_not_isLeaf hkind.2, List.nil_append]

/-- A token of a kind that is a leaf adds its literal. -/
theorem tokenLeaves_take {kind : Token.Kind} (ht : t.kind = kind) (hkind : kind.isLeaf = true) :
    tokenLeaves (t :: ts) = t.literal :: tokenLeaves ts := by
  subst ht
  have hnext : t.kind ≠ .word .next := by
    intro hnext
    rw [hnext] at hkind
    cases hkind
  rw [tokenLeaves_cons hnext, Token.leaf_of_isLeaf hkind, List.singleton_append]

/-- A sign is no leaf. -/
theorem tokenLeaves_unary {op : UnaryOp} (ht : UnaryOp.ofKind? t.kind = some op) :
    tokenLeaves (t :: ts) = tokenLeaves ts := by
  unfold UnaryOp.ofKind? at ht
  split at ht
  next h => exact tokenLeaves_skip h (by decide)
  next h => exact tokenLeaves_skip h (by decide)
  next h => exact tokenLeaves_skip h (by decide)
  next h => exact tokenLeaves_skip h (by decide)
  next => cases ht

/-- An operator is no leaf, not even one that is a word. -/
theorem tokenLeaves_binary {op : BinaryOp} (ht : BinaryOp.ofKind? t.kind = some op) :
    tokenLeaves (t :: ts) = tokenLeaves ts := by
  unfold BinaryOp.ofKind? at ht
  split at ht
  case h_11 => cases ht
  all_goals exact tokenLeaves_skip ‹_› (by decide)

/-- A colon is no leaf. -/
@[simp]
theorem tokenLeaves_afterSeparator (ts : List Token) :
    tokenLeaves (afterSeparator ts) = tokenLeaves ts := by
  unfold afterSeparator
  split
  next t ts =>
    split
    next ht => exact (tokenLeaves_skip ht (by decide)).symm
    next => rfl
  next => rfl

end Tokens

/-! ## Expressions -/

/-- An expression stands where one of its tokens does. -/
theorem ExprReading.exists_loc {declared : String → Bool} {ts us : List Token} {e : Expr}
    (h : ExprReading declared ts (.expr e) us) : ∃ t ∈ ts, t.loc = e.loc := by
  generalize hphrase : Phrase.expr e = phrase at h
  -- all but an infix operator stand at or behind their first token
  induction h generalizing e with
  | name | element | bareCall | call | int | str | unary =>
    cases hphrase
    exact ⟨_, List.mem_cons_self, rfl⟩
  | groupedCall _ _ _ _ ih | grouped _ _ _ ih =>
    cases hphrase
    obtain ⟨t, ht, hloc⟩ := ih rfl
    exact ⟨t, List.mem_cons_of_mem _ ht, hloc⟩
  | binary hleft =>
    -- it stands at the operator, behind the left operand
    cases hphrase
    exact ⟨_, hleft.suffix.subset List.mem_cons_self, rfl⟩
  | one | cons | noArguments | someArguments => cases hphrase

/-- The tokens of an expression have its leaves. -/
theorem ExprReading.tokenLeaves_eq {declared : String → Bool} {ts us : List Token}
    {phrase : Phrase} (h : ExprReading declared ts phrase us) :
    tokenLeaves ts = phrase.leaves ++ tokenLeaves us := by
  -- along the reading: names and literals are taken, parentheses and operators are skipped
  induction h with
  | name ht => rw [tokenLeaves_take ht (by decide)]; rfl
  | element ht _ hp _ hq ih =>
    rw [tokenLeaves_take ht (by decide), tokenLeaves_skip hp (by decide), ih,
      tokenLeaves_skip hq (by decide)]
    rfl
  | bareCall ht _ _ ih | call ht _ _ ih => rw [tokenLeaves_take ht (by decide), ih]; rfl
  | groupedCall hp _ hq _ ih ih' =>
    -- the leaf of the plain name becomes that of the function
    rw [tokenLeaves_skip hp (by decide), ih, tokenLeaves_skip hq (by decide), ih']
    rfl
  | int ht | str ht => rw [tokenLeaves_take ht (by decide)]; rfl
  | grouped hp _ hq ih => rw [tokenLeaves_skip hp (by decide), ih, tokenLeaves_skip hq (by decide)]
  | unary ht _ ih => rw [tokenLeaves_unary ht, ih]; rfl
  | binary _ ht _ ih ih' =>
    rw [ih, tokenLeaves_binary ht, ih', ← List.append_assoc]
    rfl
  | one _ ih =>
    rw [ih]
    simp only [Phrase.leaves, Expr.listLeaves, List.append_nil]
  | cons _ ht _ ih ih' =>
    rw [ih, tokenLeaves_skip ht (by decide), ih', ← List.append_assoc]
    rfl
  | noArguments hp hq => rw [tokenLeaves_skip hp (by decide), tokenLeaves_skip hq (by decide)]; rfl
  | someArguments hp _ hq ih =>
    rw [tokenLeaves_skip hp (by decide), ih, tokenLeaves_skip hq (by decide)]
    rfl

/-! ## Parts of statements -/

/-- The leaves of a list are those of its items, since the commas have none. -/
theorem CommaReading.tokenLeaves_eq {α : Type} {item : List Token → α → List Token → Prop}
    {leaves : α → List String}
    (hitem : ∀ ts value us, item ts value us → tokenLeaves ts = leaves value ++ tokenLeaves us)
    {ts us : List Token} {values : List α} (h : CommaReading item ts values us) :
    tokenLeaves ts = values.flatMap leaves ++ tokenLeaves us := by
  induction h with
  | one hvalue =>
    rw [hitem _ _ _ hvalue]
    simp
  | cons hvalue ht _ ih =>
    rw [hitem _ _ _ hvalue, tokenLeaves_skip ht (by decide), ih, ← List.append_assoc]
    rfl

/-- The only leaf of a target is its name, whether or not an asterisk stands in front. -/
theorem TargetReading.tokenLeaves_eq {ts us : List Token} {target : JumpTarget}
    (h : TargetReading ts target us) : tokenLeaves ts = [target.name] ++ tokenLeaves us := by
  cases h with
  | number ht => rw [tokenLeaves_take ht (by decide)]; rfl
  | label ht hn => rw [tokenLeaves_skip ht (by decide), tokenLeaves_take hn (by decide)]; rfl

/-- The only leaf of a size is its number. -/
theorem SizeReading.tokenLeaves_eq {ts us : List Token} {size : IntLit}
    (h : SizeReading ts size us) : tokenLeaves ts = [size.literal] ++ tokenLeaves us := by
  cases h with
  | int ht => rw [tokenLeaves_take ht (by decide)]; rfl

/-- The leaves of a declaration are the name of the array and its sizes. -/
theorem DeclReading.tokenLeaves_eq {ts us : List Token} {array : ArrayDecl}
    (h : DeclReading ts array us) : tokenLeaves ts = array.leaves ++ tokenLeaves us := by
  cases h with
  | array hn hp hsizes hq =>
    rw [tokenLeaves_take hn (by decide), tokenLeaves_skip hp (by decide),
      hsizes.tokenLeaves_eq fun _ _ _ hsize => hsize.tokenLeaves_eq,
      tokenLeaves_skip hq (by decide)]
    simp [ArrayDecl.leaves, List.map_eq_flatMap]

/-- A step that is written stands behind the loop, so it is told from the one that is not. -/
theorem StepReading.tokenLeaves_eq {declared : String → Bool} {loc : Location}
    {ts us : List Token} {step : Expr} (h : StepReading declared loc ts step us)
    (hloc : ∀ t ∈ ts, t.loc ≠ loc) :
    tokenLeaves ts = step.stepLeaves loc ++ tokenLeaves us := by
  cases h with
  | given ht hstep =>
    -- the step stands at a token of its own, so not where the loop does
    obtain ⟨t, ht', hsame⟩ := hstep.exists_loc
    have hne : step.loc ≠ loc := hsame ▸ hloc t (List.mem_cons_of_mem _ ht')
    rw [tokenLeaves_skip ht (by decide), hstep.tokenLeaves_eq, Expr.stepLeaves, if_neg hne]
    rfl
  | default => simp [Expr.stepLeaves, Expr.loc]

/-- What separates the head of a loop from its body has no leaves. -/
theorem HeadEndReading.tokenLeaves_eq {ts us : List Token} (h : HeadEndReading ts us) :
    tokenLeaves ts = tokenLeaves us := by
  cases h with
  | colon ht => exact tokenLeaves_skip ht (by decide)
  | line => rfl

/-- The leaves of a head are the counter and those of its bounds, and of a `STEP` that is written.
-/
theorem HeadReading.tokenLeaves_eq {declared : String → Bool} {loc : Location}
    {ts us : List Token} {counter : String} {first last step : Expr}
    (h : HeadReading declared loc ts counter first last step us) (hloc : ∀ t ∈ ts, t.loc ≠ loc) :
    tokenLeaves ts =
      counter :: (first.leaves ++ last.leaves ++ step.stepLeaves loc) ++ tokenLeaves us := by
  cases h with
  | head hn he hfirst ho hlast hstep hend =>
    -- the tokens of the step are among those of the head
    have hstep := hstep.tokenLeaves_eq fun t ht => hloc t <| List.mem_cons_of_mem _ <|
      List.mem_cons_of_mem _ <| hfirst.suffix.subset <| List.mem_cons_of_mem _ <|
      hlast.suffix.subset ht
    rw [tokenLeaves_take hn (by decide), tokenLeaves_skip he (by decide), hfirst.tokenLeaves_eq,
      tokenLeaves_skip ho (by decide), hlast.tokenLeaves_eq, hstep, hend.tokenLeaves_eq]
    simp [Phrase.leaves]

/-- The end of a loop has no leaves, with the counter repeated or without. -/
theorem LoopEndReading.tokenLeaves_eq {ts us : List Token} (h : LoopEndReading ts us) :
    tokenLeaves ts = tokenLeaves us := by
  cases h with
  | named ht hn => rw [tokenLeaves_named_next ht hn, tokenLeaves_afterSeparator]
  | bare ht hts => rw [tokenLeaves_bare_next ht hts, tokenLeaves_afterSeparator]

/-! ## Statements -/

theorem Statement.listLeaves_append (first second : List Statement) :
    Statement.listLeaves (first ++ second) =
      Statement.listLeaves first ++ Statement.listLeaves second := by
  induction first with
  | nil => rfl
  | cons head tail ih =>
    rw [List.cons_append, Statement.listLeaves, ih, Statement.listLeaves, List.append_assoc]

theorem Clause.leaves_statement (statement : Statement) :
    (Clause.statement (some statement)).leaves = statement.leaves := by
  simp [Clause.leaves, Statement.listLeaves]

/-- The tokens of a clause have its leaves. -/
theorem Reading.tokenLeaves_eq {before after : Declarations} {ts us : List Token}
    {clause : Clause} (h : Reading before ts clause after us)
    (horder : ts.Pairwise fun first second => first.loc.Before second.loc) :
    tokenLeaves ts = clause.leaves ++ tokenLeaves us := by
  -- along the reading; the order of the tokens is handed on for the loops in a part
  induction h with
  | remark ht => rw [tokenLeaves_skip ht (by decide), tokenLeaves_afterSeparator]; rfl
  | empty ht => rw [tokenLeaves_skip ht (by decide)]; rfl
  | lineNumber ht => rw [tokenLeaves_take ht (by decide)]; rfl
  | dataLine ht hd =>
    rw [tokenLeaves_take ht (by decide), tokenLeaves_take hd (by decide),
      tokenLeaves_afterSeparator]
    rfl
  | label ht hn =>
    rw [tokenLeaves_skip ht (by decide), tokenLeaves_take hn (by decide),
      tokenLeaves_afterSeparator]
    rfl
  | dim ht hdeclared =>
    rw [tokenLeaves_skip ht (by decide),
      hdeclared.tokenLeaves_eq fun _ _ _ harray => harray.tokenLeaves_eq,
      tokenLeaves_afterSeparator, Clause.leaves_statement, Statement.leaves]
  | cond ht hcondition hu _ ih =>
    have hrest := horder.sublist (hcondition.suffix.sublist.trans (List.sublist_cons_self _ _))
    rw [tokenLeaves_skip ht (by decide), hcondition.tokenLeaves_eq, tokenLeaves_skip hu (by decide),
      ih (List.Pairwise.of_cons hrest), Clause.leaves_statement]
    simp [Statement.leaves, Branch.elseLeaves, Phrase.leaves, Clause.leaves]
  | condElse ht hcondition hu hconsequence hv _ ih ih' =>
    have hrest := horder.sublist (hcondition.suffix.sublist.trans (List.sublist_cons_self _ _))
    have hrest := List.Pairwise.of_cons hrest
    have hrest' := List.Pairwise.of_cons (hrest.sublist hconsequence.suffix.sublist)
    rw [tokenLeaves_skip ht (by decide), hcondition.tokenLeaves_eq,
      tokenLeaves_skip hu (by decide), ih hrest, tokenLeaves_skip hv (by decide), ih' hrest',
      Clause.leaves_statement]
    simp [Statement.leaves, Branch.elseLeaves, Phrase.leaves, Clause.leaves]
  | @on _ _ j _ us _ _ kind _ ht hvalue hj htargets =>
    have hskip : tokenLeaves (j :: us) = tokenLeaves us := by
      cases kind
      · exact tokenLeaves_skip hj (by decide)
      · exact tokenLeaves_skip hj (by decide)
    rw [tokenLeaves_skip ht (by decide), hvalue.tokenLeaves_eq, hskip,
      htargets.tokenLeaves_eq fun _ _ _ htarget => htarget.tokenLeaves_eq,
      tokenLeaves_afterSeparator, Clause.leaves_statement]
    simp [Statement.leaves, Phrase.leaves, List.map_eq_flatMap]
  | goto ht htarget | gosub ht htarget =>
    rw [tokenLeaves_skip ht (by decide), htarget.tokenLeaves_eq, tokenLeaves_afterSeparator]
    rfl
  | ret ht => rw [tokenLeaves_skip ht (by decide), tokenLeaves_afterSeparator]; rfl
  | loop ht hhead _ hend ih =>
    -- the tokens of the head stand behind `FOR`
    have hbehind := List.pairwise_cons.1 horder
    have hloc := fun t ht => (hbehind.1 t ht).ne.symm
    have hrest := hbehind.2.sublist hhead.suffix.sublist
    rw [tokenLeaves_skip ht (by decide), hhead.tokenLeaves_eq hloc, ih hrest, hend.tokenLeaves_eq,
      Clause.leaves_statement]
    simp [Statement.leaves, Clause.leaves]
  | assign ht he hvalue =>
    rw [tokenLeaves_take ht (by decide), tokenLeaves_skip he (by decide), hvalue.tokenLeaves_eq,
      tokenLeaves_afterSeparator, Clause.leaves_statement]
    simp [Statement.leaves, Phrase.leaves, Expr.listLeaves]
  | assignElement ht _ hp hindices hq he hvalue =>
    rw [tokenLeaves_take ht (by decide), tokenLeaves_skip hp (by decide), hindices.tokenLeaves_eq,
      tokenLeaves_skip hq (by decide), tokenLeaves_skip he (by decide), hvalue.tokenLeaves_eq,
      tokenLeaves_afterSeparator, Clause.leaves_statement]
    simp [Statement.leaves, Phrase.leaves]
  | plainCall ht _ => rw [tokenLeaves_take ht (by decide), tokenLeaves_afterSeparator]; rfl
  | call ht _ hargs | bareCall ht _ hargs =>
    rw [tokenLeaves_take ht (by decide), hargs.tokenLeaves_eq, tokenLeaves_afterSeparator,
      Clause.leaves_statement]
    simp [Statement.leaves, Phrase.leaves]
  | nil => rfl
  | cons hfound _ ih ih' =>
    rw [ih horder, ih' (horder.sublist hfound.suffix.sublist)]
    simp only [Clause.leaves, Statement.listLeaves_append, List.append_assoc]
  | block _ ih => exact ih horder
  | jump htarget _ ih =>
    have hrest := horder.sublist ((afterSeparator_suffix _).trans htarget.suffix).sublist
    rw [htarget.tokenLeaves_eq, ← tokenLeaves_afterSeparator, ih hrest]
    rfl
  | jumpBlock htarget _ ih =>
    have hrest := horder.sublist ((afterSeparator_suffix _).trans htarget.suffix).sublist
    rw [htarget.tokenLeaves_eq, ← tokenLeaves_afterSeparator, ih hrest]
    simp [Clause.leaves, Branch.leaves, Statement.listLeaves, Statement.leaves]

/-! ## Listings -/

/-- The end token has no leaves. -/
theorem tokenLeaves_append_endAt (ts : List Token) (finish : Location) :
    tokenLeaves (ts ++ [.endAt finish]) = tokenLeaves ts := by
  -- the end token is no name, so it is not lost after a final `NEXT` either
  fun_induction tokenLeaves ts with
  | case1 => rfl
  | case2 token => simp [tokenLeaves, Token.endAt, Token.leaf]
  | case3 token next rest hnext ih =>
    rw [List.cons_append, List.cons_append, tokenLeaves, if_pos hnext, ih]
  | case4 token next rest hnext ih =>
    rw [List.cons_append, List.cons_append, tokenLeaves, if_neg hnext, ← List.cons_append, ih]

/-- The leaves of the tokens of a listing that parses without a diagnostic are the leaves of its
program, in the same order. -/
theorem tokenLeaves_tokenize (bytes : List UInt8) (h : (parse bytes).isClean = true) :
    tokenLeaves (tokenize bytes) = Statement.listLeaves (parse bytes).program := by
  obtain ⟨body, finish, htokens, -, horder, hreading⟩ := exists_reading_of_isClean h
  rw [htokens, tokenLeaves_append_endAt, hreading.tokenLeaves_eq horder]
  exact List.append_nil _

/-- The theorem at a listing with an array, a jump after `THEN`, a loop with the counter named
after `NEXT`, a call and data. -/
theorem tokenLeaves_tokenize_mixed :
    (parse (Utf8.encode ("10 DIM A(3)\n20 IF A(1)>2 THEN 30 ELSE " ++
      "FOR I=1 TO 2: X=F(I, \"s\"): NEXT I\n30 DATA a,b"))).isClean = true ∧
    Statement.listLeaves (parse (Utf8.encode ("10 DIM A(3)\n20 IF A(1)>2 THEN 30 ELSE " ++
      "FOR I=1 TO 2: X=F(I, \"s\"): NEXT I\n30 DATA a,b"))).program =
      ["10", "A", "3", "20", "A", "1", "2", "30", "I", "1", "2", "X", "F", "I", "s", "30", "a,b"] :=
  ⟨by decide +kernel, (tokenLeaves_tokenize _ (by decide +kernel)).symm.trans (by decide +kernel)⟩

end LineBasic
