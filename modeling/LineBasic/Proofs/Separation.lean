import LineBasic.Proofs.Spelling.Program.Spellable
import LineBasic.Proofs.Token.Openings

/-!
# What stands between statements

In a listing without a diagnostic, two statements that follow each other in a list are divided by a
colon or by the start of a line, or else they stand side by side: the colon that ends a statement is
taken in if there is one, and is not asked for (`separated_of_isClean`). Nothing stands directly
behind an `IF` or behind data, though: those take the rest of the line, or of the statement, with
them. And a statement is not cut short for another one to stand beside it. It takes in all that it
can go on with (`Statement.goesOn`): an operator, a further item of a list, or what a name that no
array bears can be called with. Left out is a call with parentheses right behind its name, when an
asterisk follows them on the same line (`Statement.CutsOff`).
-/

namespace LineBasic

/-! ## Neighbours -/

mutual

/-- The pairs of neighbours in the lists of an arm. -/
def Branch.neighbours : Branch → List (Statement × Statement)
  | .goto _ => []
  | .block statements => Statement.listNeighbours statements

/-- The pairs of neighbours in the lists of an arm that may be missing. -/
def Branch.elseNeighbours : Option Branch → List (Statement × Statement)
  | none => []
  | some branch => branch.neighbours

/-- The pairs of neighbours in the lists in a statement. -/
def Statement.neighbours : Statement → List (Statement × Statement)
  | .cond _ consequence alternative _ =>
    consequence.neighbours ++ Branch.elseNeighbours alternative
  | .loop _ _ _ _ body _ => Statement.listNeighbours body
  | _ => []

/-- The pairs of neighbours in a list and in the lists in its members. -/
def Statement.listNeighbours : List Statement → List (Statement × Statement)
  | [] => []
  | head :: tail =>
    head.neighbours ++ tail.head?.toList.map (Prod.mk head) ++ Statement.listNeighbours tail

end

/-- Whether the statement is a line number without data. -/
def Statement.isBareLine : Statement → Bool
  | .lineNumber _ none _ => true
  | _ => false

/-- The pairs of neighbours in the lists of a clause. -/
def Clause.neighbours : Clause → List (Statement × Statement)
  | .statement found => Statement.listNeighbours found.toList
  | .block statements => Statement.listNeighbours statements
  | .branch _ arm => arm.neighbours

theorem Clause.neighbours_statement (statement : Statement) :
    (Clause.statement (some statement)).neighbours = statement.neighbours := by
  simp [Clause.neighbours, Statement.listNeighbours]

/-- Whether a statement other than a line number can start with a token of the kind. -/
def Token.Kind.startsStatement : Token.Kind → Bool
  | .ident | .sym .asterisk => true
  | .word .dim | .word .if_ | .word .on | .word .goto | .word .gosub | .word .return_
  | .word .for_ => true
  | _ => false

/-- Whether a statement that stands side by side with the next one can end with a token of the
kind: with that of an expression, or with `RETURN` or `NEXT`. -/
def Token.Kind.endsStatement : Token.Kind → Bool
  | .ident | .num | .str | .sym .rparen => true
  | .word .return_ | .word .next => true
  | _ => false

/-- The tokens start with some of which the last is as `p` says, and the others follow. -/
def Ends (p : Token → Prop) (ts us : List Token) : Prop :=
  ∃ front t, ts = front ++ t :: us ∧ p t

namespace Ends

variable {p : Token → Prop} {ts us all : List Token}

/-- One token is the last of its kind. -/
theorem single {t : Token} (h : p t) : Ends p (t :: us) us :=
  ⟨[], t, rfl, h⟩

/-- What ends some tokens ends all that they are a suffix of. -/
theorem of_suffix (h : Ends p ts us) (hsuffix : ts <:+ all) : Ends p all us := by
  obtain ⟨front, t, rfl, ht⟩ := h
  obtain ⟨more, rfl⟩ := hsuffix
  exact ⟨more ++ front, t, (List.append_assoc _ _ _).symm, ht⟩

/-- A token before the others changes nothing about how they end. -/
theorem cons (h : Ends p ts us) (t : Token) : Ends p (t :: ts) us :=
  h.of_suffix (List.suffix_cons _ _)

end Ends

/-- The token can end an expression before the rest: if it is a name that is not that of an array,
then nothing that it could be called with comes next. -/
def ClosesBefore (declared : String → Bool) (us : List Token) (t : Token) : Prop :=
  t.kind.endsStatement = true ∧
    (t.kind = .ident → declared t.literal = false →
      ∀ n ∈ us.head?, n.kind ≠ .ident ∧ n.kind ≠ .num)

/-- Any token but a name ends an expression wherever it ends a statement. -/
theorem ClosesBefore.of_kind {declared : String → Bool} {us : List Token} {t : Token}
    {kind : Token.Kind} (ht : t.kind = kind)
    (hkind : kind.endsStatement = true ∧ kind ≠ .ident) : ClosesBefore declared us t :=
  ⟨ht ▸ hkind.1, fun hident => absurd (ht.symm.trans hident) hkind.2⟩

/-- The last token of an expression closes it. -/
theorem ExprReading.ends {declared : String → Bool} {ts us : List Token} {phrase : Phrase}
    (h : ExprReading declared ts phrase us) : Ends (ClosesBefore declared us) ts us := by
  have hparen {q : Token} {us : List Token} (hq : q.kind = .sym .rparen) :
      Ends (ClosesBefore declared us) (q :: us) us := .single (.of_kind hq (by decide))
  induction h with
  | name ht hts => exact .single ⟨by rw [ht]; rfl, fun _ => hts⟩
  | element _ _ _ hindices hq => exact (((hparen hq).of_suffix hindices.suffix).cons _).cons _
  | bareCall _ _ _ ih | call _ _ _ ih => exact ih.cons _
  | groupedCall _ hname _ _ _ ih =>
    exact ((ih.cons _).of_suffix hname.suffix).cons _
  | int ht | str ht => exact .single (.of_kind ht (by decide))
  | grouped _ he hq => exact ((hparen hq).of_suffix he.suffix).cons _
  | unary _ _ ih => exact ih.cons _
  | binary hleft _ _ _ ih => exact (ih.cons _).of_suffix hleft.suffix
  | one _ ih => exact ih
  | cons he _ _ _ ih => exact (ih.cons _).of_suffix he.suffix
  | noArguments _ hq => exact (hparen hq).cons _
  | someArguments _ hargs hq => exact ((hparen hq).of_suffix hargs.suffix).cons _

/-- Arguments in parentheses start with the opening one and end with the closing one. -/
theorem ExprReading.exists_parens {declared : String → Bool} {ts us : List Token}
    {args : List Expr} (h : ExprReading declared ts (.arguments args) us) :
    ∃ p front q, ts = p :: (front ++ q :: us) ∧ p.kind = .sym .lparen ∧ q.kind = .sym .rparen := by
  cases h with
  | @noArguments p q _ hp hq => exact ⟨p, [], q, rfl, hp, hq⟩
  | @someArguments p q _ _ _ hp hargs hq =>
    obtain ⟨front, rfl⟩ := hargs.suffix
    exact ⟨p, front, q, rfl, hp, hq⟩

/-- The last token of a list with commas is that of its last item. -/
theorem CommaReading.ends {α : Type} {item : List Token → α → List Token → Prop}
    {p : Token → Prop} (hsuffix : ∀ ts value us, item ts value us → us <:+ ts)
    (hitem : ∀ ts value us, item ts value us → Ends p ts us) {ts us : List Token}
    {values : List α} (h : CommaReading item ts values us) : Ends p ts us := by
  induction h with
  | one hvalue => exact hitem _ _ _ hvalue
  | cons hvalue _ _ ih => exact (ih.cons _).of_suffix (hsuffix _ _ _ hvalue)

/-- A label ends with a number or with a name. -/
theorem TargetReading.ends {ts us : List Token} {target : JumpTarget}
    (h : TargetReading ts target us) : Ends (·.kind.endsStatement = true) ts us := by
  cases h with
  | number ht => exact .single (by rw [ht]; rfl)
  | label _ hn => exact (Ends.single (by rw [hn]; rfl)).cons _

/-- A declaration ends with a closing parenthesis. -/
theorem DeclReading.ends {ts us : List Token} {array : ArrayDecl}
    (h : DeclReading ts array us) : Ends (·.kind.endsStatement = true) ts us := by
  cases h with
  | array _ _ hsizes hq =>
    have hparen : Ends (·.kind.endsStatement = true) (_ :: us) us := .single (by rw [hq]; rfl)
    exact ((hparen.of_suffix (hsizes.suffix fun _ _ _ => SizeReading.suffix)).cons _).cons _

/-- A loop ends with the name of a counter or with `NEXT`, and in the latter case no name comes
next. -/
theorem LoopEndReading.ends {ts us : List Token} (h : LoopEndReading ts us) :
    ∃ rest, us = afterSeparator rest ∧
      Ends (fun t => t.kind = .ident ∨
        t.kind = .word .next ∧ ∀ n ∈ rest.head?, n.kind ≠ .ident) ts rest := by
  cases h with
  | named _ hn => exact ⟨_, rfl, (Ends.single (.inl hn)).cons _⟩
  | bare ht hts => exact ⟨_, rfl, .single (.inr ⟨ht, hts⟩)⟩

/-! ## Where a statement would go on -/

/-- Whether an expression with the token `last` at its end would go on with a token of the kind:
with an operator or a list, or behind a name that no array bears with the first of its arguments. -/
def Token.Kind.extendsExpr (declarations : Declarations) (last : Token) (kind : Token.Kind) :
    Bool :=
  (Grammar.extensionPower? kind).isSome ||
    last.kind = .ident && !declarations.isBefore (last.literal, last.loc) &&
      (kind = .ident || kind = .num)

/-- Whether a statement with the tokens `front` and `last` would go on with a token of the kind
behind them. -/
def Statement.goesOn (declarations : Declarations) (front : List Token) (last : Token)
    (kind : Token.Kind) : Statement → Bool
  | .dim _ _ | .on _ _ _ _ => kind = .sym .comma
  | .loop _ _ _ _ _ _ => last.kind = .word .next && kind = .ident
  | .assign _ _ _ _ => kind.extendsExpr declarations last
  | .call _ _ _ =>
    if front.isEmpty then !kind.isTerminator
    else kind = .sym .comma || kind.extendsExpr declarations last
  | _ => false

/-- What is declared among fewer arrays is declared among more. -/
theorem Declarations.isBefore_mono {fewer more : Declarations} {name : String × Location}
    (hsubset : fewer ⊆ more) (h : fewer.isBefore name = true) : more.isBefore name = true := by
  obtain ⟨d, hd, hname⟩ := List.any_eq_true.1 h
  exact List.any_eq_true.2 ⟨d, hsubset hd, hname⟩

/-- More arrays leave fewer names that an expression could go on behind. -/
theorem Token.Kind.extendsExpr_mono {fewer more : Declarations} {last : Token}
    {kind : Token.Kind} (hsubset : fewer ⊆ more) (h : kind.extendsExpr fewer last = false) :
    kind.extendsExpr more last = false := by
  rw [extendsExpr, Bool.or_eq_false_iff] at h ⊢
  refine ⟨h.1, ?_⟩
  cases hbefore : more.isBefore (last.literal, last.loc) with
  | true => simp
  | false =>
    have hless : fewer.isBefore (last.literal, last.loc) = false := by
      rw [← Bool.not_eq_true] at hbefore ⊢
      exact fun hless => hbefore (Declarations.isBefore_mono hsubset hless)
    rw [hless] at h
    exact h.2

theorem Statement.goesOn_mono {fewer more : Declarations} {front : List Token} {last : Token}
    {kind : Token.Kind} {statement : Statement} (hsubset : fewer ⊆ more)
    (h : statement.goesOn fewer front last kind = false) :
    statement.goesOn more front last kind = false := by
  cases statement with
  | assign name indices value loc => exact Token.Kind.extendsExpr_mono hsubset h
  | call function arguments loc =>
    rw [goesOn] at h ⊢
    split at h
    next hempty => rwa [if_pos hempty]
    next hempty =>
      rw [Bool.or_eq_false_iff] at h
      rw [if_neg hempty, Bool.or_eq_false_iff]
      exact ⟨h.1, Token.Kind.extendsExpr_mono hsubset h.2⟩
  | _ => exact h

/-- An expression does not go on behind a token that closes it, with nothing there that extends
it. -/
theorem ClosesBefore.extendsExpr_eq_false {before : Declarations} {us : List Token} {t u : Token}
    (h : ClosesBefore before.has us t) (hus : EndsExpr us)
    (hbefore : before.has t.literal = true → before.isBefore (t.literal, t.loc) = true)
    (hu : u ∈ us.head?) : u.kind.extendsExpr before t = false := by
  rw [Token.Kind.extendsExpr, hus u hu, Option.isSome_none, Bool.false_or]
  by_cases hname : t.kind = .ident ∧ before.isBefore (t.literal, t.loc) = false
  · obtain ⟨hident, hnot⟩ := hname
    have hfree : before.has t.literal = false := by
      rw [← Bool.not_eq_true] at hnot ⊢
      exact fun hhas => hnot (hbefore hhas)
    obtain ⟨hne, hne'⟩ := h.2 hident hfree u hu
    simp [hne, hne']
  · have hnot : (decide (t.kind = .ident) && !before.isBefore (t.literal, t.loc)) = false := by
      simpa using hname
    rw [hnot, Bool.false_and]

/-! ## Where statements start and end -/

/-- Whether the statement is a call. -/
def Statement.isCall : Statement → Bool
  | .call _ _ _ => true
  | _ => false

/-- The tokens up to the rest are those of the statement: it is read from them, or it is the jump
to the label right behind `THEN` or `ELSE` that is read from them. -/
inductive Statement.Spans : Statement → List Token → List Token → Prop
  /-- A statement with a reading. -/
  | whole {before after : Declarations} {ts us : List Token} {statement : Statement}
      (h : Reading before ts (.statement (some statement)) after us) : Spans statement ts us
  /-- A label that stands for a jump. -/
  | label {ts us : List Token} {target : JumpTarget} {loc : Location}
      (h : TargetReading ts target us) : Spans (.goto target loc) ts (afterSeparator us)

/-- A statement stands side by side with another that starts with the token `u`: its own tokens are
`front` and `t`, it takes in no more, and it could not go on with `u`. -/
structure SideBySide (declarations : Declarations) (pred : Statement) (front : List Token)
    (t u : Token) (back : List Token) : Prop where
  spans : pred.Spans (front ++ t :: u :: back) (u :: back)
  isLine : pred.isLine = false
  isCond : pred.isCond = false
  ends : t.kind.endsStatement = true
  starts : u.kind.startsStatement = true
  stops : pred.goesOn declarations front t u.kind = false

theorem SideBySide.mono {fewer more : Declarations} {pred : Statement} {front back : List Token}
    {t u : Token} (h : SideBySide fewer pred front t u back) (hsubset : fewer ⊆ more) :
    SideBySide more pred front t u back :=
  { h with stops := Statement.goesOn_mono hsubset h.stops }

/-- A call takes the parentheses right behind its name for all of its arguments, and an asterisk
comes next. -/
structure CutOff (pred : Statement) (front : List Token) (t u : Token) : Prop where
  isCall : pred.isCall = true
  opens : ∃ name paren more, front = name :: paren :: more ∧ name.loc = pred.loc ∧
    paren.kind = .sym .lparen
  closes : t.kind = .sym .rparen
  star : u.kind = .sym .asterisk

/-- The token is the first one of the statement. -/
structure Statement.OpensWith (statement : Statement) (u : Token) : Prop where
  loc : u.loc = statement.loc
  line : statement.isLine = true → u.kind = .lineNo
  word : statement.isLine = false → u.kind.startsStatement = true

/-- A statement opens neither with a colon nor with the end of the listing. -/
theorem Statement.OpensWith.kind_ne {statement : Statement} {u : Token}
    (h : statement.OpensWith u) : u.kind ≠ .sym .colon ∧ u.kind ≠ .eof := by
  cases hline : statement.isLine with
  | true =>
    rw [h.line hline]
    decide
  | false =>
    have hword := h.word hline
    constructor <;> intro hkind <;> rw [hkind] at hword <;> cases hword

/-- The statement starts among the tokens, behind remarks and empty statements only. -/
def StartsIn (statement : Statement) (ts : List Token) : Prop :=
  ∃ skipped u back, ts = skipped ++ u :: back ∧ statement.OpensWith u ∧
    ∀ t ∈ skipped.getLast?, t.kind = .sym .colon ∨ t.kind = .word .rem

/-- The tokens `front` and `t` of a statement, which does not go on with the next one. -/
structure LastToken (declarations : Declarations) (statement : Statement) (front : List Token)
    (t : Token) (rest : List Token) : Prop where
  isLine : statement.isLine = false
  isCond : statement.isCond = false
  ends : t.kind.endsStatement = true
  stops : ∀ u ∈ rest.head?, u.kind.startsStatement = true →
    CutOff statement front t u ∨ statement.goesOn declarations front t u.kind = false

/-- The statement ends before the others: with data or a token that can end it and the colon behind
that, if there is one, or where the line does. -/
def EndsIn (declarations : Declarations) (statement : Statement) (ts us : List Token) : Prop :=
  ∃ front t rest, ts = front ++ t :: rest ∧
    (us = afterSeparator rest ∧ (t.kind = .word .data ∨
        statement.Spans ts us ∧ LastToken declarations statement front t rest) ∨
      us = rest ∧ statement.isCond = true)

/-- A statement ends with its last token, and with the colon behind that. -/
theorem EndsIn.of_last {declarations : Declarations} {statement : Statement} {t : Token}
    {front ts us : List Token} (hts : ts = front ++ t :: us)
    (hspans : statement.Spans ts (afterSeparator us))
    (hlast : LastToken declarations statement front t us) :
    EndsIn declarations statement ts (afterSeparator us) :=
  ⟨front, t, us, hts, .inl ⟨rfl, .inr ⟨hspans, hlast⟩⟩⟩

/-- A statement ends with the last of its tokens, if it would go on with no token behind it that
starts another. -/
theorem EndsIn.of_ends {declarations : Declarations} {statement : Statement}
    {ts us : List Token} (h : Ends (·.kind.endsStatement = true) ts us)
    (hspans : statement.Spans ts (afterSeparator us)) (hline : statement.isLine = false)
    (hcond : statement.isCond = false)
    (hstops : ∀ front t, ∀ u ∈ us.head?, u.kind.startsStatement = true →
      statement.goesOn declarations front t u.kind = false) :
    EndsIn declarations statement ts (afterSeparator us) := by
  obtain ⟨front, t, hts, ht⟩ := h
  exact .of_last hts hspans
    ⟨hline, hcond, ht, fun u hu hstarts => .inr (hstops front t u hu hstarts)⟩

/-- An `IF` ends somewhere behind its keyword. -/
theorem EndsIn.of_suffix {declarations : Declarations} {statement : Statement} {t : Token}
    {ts us : List Token} (h : us <:+ ts) (hcond : statement.isCond = true) :
    EndsIn declarations statement (t :: ts) us := by
  obtain ⟨front, rfl⟩ := h
  rcases List.eq_nil_or_concat front with rfl | ⟨front, last, rfl⟩
  · exact ⟨[], t, us, rfl, .inr ⟨rfl, hcond⟩⟩
  · exact ⟨t :: front, last, us, by simp, .inr ⟨rfl, hcond⟩⟩

/-- A statement starts with its first token. -/
theorem Reading.startsIn {before after : Declarations} {ts us : List Token}
    {statement : Statement} (h : Reading before ts (.statement (some statement)) after us) :
    StartsIn statement ts := by
  cases h <;> exact ⟨[], _, _, rfl,
    ⟨rfl, by simp [*, Statement.isLine], by simp [*, Statement.isLine, Token.Kind.startsStatement]⟩,
    by simp⟩

/-- A remark or an empty statement leaves nothing but a colon or the remark before the rest. -/
theorem Reading.exists_skipped {before after : Declarations} {ts us : List Token}
    (h : Reading before ts (.statement none) after us) :
    ∃ skipped t, ts = skipped ++ t :: us ∧ (t.kind = .sym .colon ∨ t.kind = .word .rem) := by
  cases h with
  | @remark _ t rest ht =>
    cases rest with
    | nil => exact ⟨[], t, rfl, .inr ht⟩
    | cons next rest =>
      rw [afterSeparator]
      split
      next hcolon => exact ⟨[t], next, rfl, .inl hcolon⟩
      next => exact ⟨[], t, rfl, .inr ht⟩
  | @empty _ t _ ht => exact ⟨[], t, rfl, .inl ht⟩

/-- The first statement of a block starts behind the remarks and empty statements before it. -/
theorem Reading.head_startsIn {before after : Declarations} {ts us : List Token}
    {statements : List Statement} (h : Reading before ts (.block statements) after us) :
    ∀ statement ∈ statements.head?, StartsIn statement ts := by
  generalize hclause : Clause.block statements = clause at h
  induction h generalizing statements with
  | nil =>
    cases hclause
    simp
  | @cons _ _ _ ts us _ found tail hfound _ _ ih =>
    cases hclause
    cases found with
    | some statement =>
      rintro _ ⟨⟩
      exact hfound.startsIn
    | none =>
      intro statement hstatement
      -- what was skipped before is followed by what the remark or the colon leaves
      obtain ⟨front, t, rfl, ht⟩ := hfound.exists_skipped
      obtain ⟨skipped, u, back, rfl, hopens, hlast⟩ := ih rfl statement hstatement
      refine ⟨front ++ t :: skipped, u, back, by simp, hopens, fun last hmem => ?_⟩
      rcases List.eq_nil_or_concat skipped with rfl | ⟨skipped, other, rfl⟩
      · have hlast : t = last := by simpa using hmem
        exact hlast ▸ ht
      · rw [List.concat_eq_append, ← List.cons_append, ← List.append_assoc,
          List.getLast?_concat] at hmem
        exact hlast last (by simpa using hmem)
  | _ => cases hclause

/-- No statement starts with a comma. -/
theorem Token.Kind.ne_comma_of_startsStatement {kind : Token.Kind}
    (h : kind.startsStatement = true) : decide (kind = .sym .comma) = false := by
  refine decide_eq_false ?_
  rintro rfl
  cases h

/-- Of the tokens that statements start with, the asterisk alone extends an expression. -/
theorem Token.Kind.eq_asterisk_of_startsStatement {kind : Token.Kind}
    (h : kind.startsStatement = true) (hpower : (Grammar.extensionPower? kind).isSome = true) :
    kind = .sym .asterisk := by
  cases kind with
  | sym symbol => cases symbol <;> simp_all [startsStatement]
  | word keyword =>
    cases keyword <;> simp_all [startsStatement, Grammar.extensionPower?, BinaryOp.ofKind?]
  | _ => cases hpower

/-- A loop goes on with nothing behind the counter, nor behind a `NEXT` with no name next. -/
theorem LastToken.loop {declarations : Declarations} {counter : String} {first last step : Expr}
    {body : List Statement} {loc : Location} {front rest : List Token} {t : Token}
    (ht : t.kind = .ident ∨ t.kind = .word .next ∧ ∀ n ∈ rest.head?, n.kind ≠ .ident) :
    LastToken declarations (.loop counter first last step body loc) front t rest where
  isLine := rfl
  isCond := rfl
  ends := by rcases ht with ht | ⟨ht, -⟩ <;> rw [ht] <;> rfl
  stops u hu _ := by
    rw [Statement.goesOn]
    rcases ht with ht | ⟨-, hrest⟩
    · simp [ht]
    · simp [hrest u hu]

/-- Behind parentheses that hold all of its arguments, a call would go on with an asterisk only, and
is cut off there. -/
theorem LastToken.parens {declarations : Declarations} {function : String}
    {arguments : List Expr} {name p q : Token} {front rest : List Token}
    (hp : p.kind = .sym .lparen) (hq : q.kind = .sym .rparen) :
    LastToken declarations (.call function arguments name.loc) (name :: p :: front) q rest where
  isLine := rfl
  isCond := rfl
  ends := by rw [hq]; rfl
  stops u _ hstarts := by
    by_cases hpower : (Grammar.extensionPower? u.kind).isSome = true
    · exact .inl ⟨rfl, ⟨name, p, front, rfl, rfl, hp⟩, hq,
        Token.Kind.eq_asterisk_of_startsStatement hstarts hpower⟩
    · refine .inr ?_
      simp [Statement.goesOn, Token.Kind.extendsExpr, hq, hpower,
        Token.Kind.ne_comma_of_startsStatement hstarts]

/-- A statement ends with its last token, and would not go on behind it with a token that starts
another, unless it is a call that takes the parentheses behind its name for all of its
arguments. -/
theorem Reading.endsIn {before after : Declarations} {ts us : List Token}
    {statement : Statement} (h : Reading before ts (.statement (some statement)) after us)
    (hprecede : before.Precede ts) (hbare : statement.isBareLine = false) :
    EndsIn before statement ts us := by
  have hspans := Statement.Spans.whole h
  -- what is declared when the statement is read is declared in front of its names
  have hknown (t : Token) (ht : t ∈ ts) (hhas : before.has t.literal = true) :
      before.isBefore (t.literal, t.loc) = true := by
    obtain ⟨loc, hmem⟩ := Declarations.has_iff.1 hhas
    exact List.any_eq_true.2 ⟨_, hmem, by simpa using hprecede _ hmem t ht⟩
  cases h with
  | lineNumber => cases hbare
  | @dataLine _ t d rest _ hd => exact ⟨[t], d, rest, rfl, .inl ⟨rfl, .inl hd⟩⟩
  | label _ hn =>
    exact .of_ends ((Ends.single (by rw [hn]; rfl)).cons _) hspans rfl rfl fun _ _ _ _ _ => rfl
  | dim _ hdeclared =>
    have hends := hdeclared.ends (fun _ _ _ => DeclReading.suffix) fun _ _ _ => DeclReading.ends
    exact .of_ends (hends.cons _) hspans rfl rfl
      fun _ _ _ _ hstarts => Token.Kind.ne_comma_of_startsStatement hstarts
  | cond _ hcondition _ hconsequence =>
    -- an `IF` ends where its last arm does
    exact .of_suffix (hconsequence.suffix.trans
      ((List.suffix_cons _ _).trans hcondition.suffix)) rfl
  | condElse _ hcondition _ hconsequence _ halternative =>
    exact .of_suffix (halternative.suffix.trans ((List.suffix_cons _ _).trans
      (hconsequence.suffix.trans ((List.suffix_cons _ _).trans hcondition.suffix)))) rfl
  | on _ hvalue _ htargets =>
    have hends := htargets.ends (fun _ _ _ => TargetReading.suffix) fun _ _ _ => TargetReading.ends
    exact .of_ends (((hends.cons _).of_suffix hvalue.suffix).cons _) hspans rfl rfl
      fun _ _ _ _ hstarts => Token.Kind.ne_comma_of_startsStatement hstarts
  | goto _ htarget | gosub _ htarget =>
    exact .of_ends (htarget.ends.cons _) hspans rfl rfl fun _ _ _ _ _ => rfl
  | ret ht =>
    exact .of_ends (.single (by rw [ht]; rfl)) hspans rfl rfl fun _ _ _ _ _ => rfl
  | loop _ hhead hbody hend =>
    obtain ⟨rest, rfl, hends⟩ := hend.ends
    obtain ⟨front, t, hts, ht⟩ := (hends.of_suffix (hbody.suffix.trans hhead.suffix)).cons _
    exact .of_last hts hspans (.loop ht)
  | @assign _ name equals _ us _ ht he hvalue hus =>
    obtain ⟨front, t, hts, hcloses⟩ := (hvalue.ends.cons equals).cons name
    refine .of_last hts hspans ⟨rfl, rfl, hcloses.1, fun u hu _ => .inr ?_⟩
    exact hcloses.extendsExpr_eq_false hus (hknown t (by rw [hts]; simp)) hu
  | @assignElement _ name p q e _ us _ _ _ _ _ _ hindices _ _ hvalue hvs =>
    obtain ⟨front, t, hts, hcloses⟩ :=
      ((((hvalue.ends.cons e).cons q).of_suffix hindices.suffix).cons p).cons name
    refine .of_last hts hspans ⟨rfl, rfl, hcloses.1, fun u hu _ => .inr ?_⟩
    exact hcloses.extendsExpr_eq_false hvs (hknown t (by rw [hts]; simp)) hu
  | @plainCall _ name rest ht _ hts =>
    refine .of_last (List.nil_append _).symm hspans
      ⟨rfl, rfl, by rw [ht]; rfl, fun u hu _ => .inr ?_⟩
    simp [Statement.goesOn, hts u hu]
  | @call _ name _ us _ ht _ hargs =>
    obtain ⟨p, front, q, rfl, hp, hq⟩ := hargs.exists_parens
    have hts : name :: p :: (front ++ q :: us) = (name :: p :: front) ++ q :: us := rfl
    exact .of_last hts hspans (.parens hp hq)
  | @bareCall _ name _ us _ ht _ hargs hus =>
    obtain ⟨front, t, rfl, hcloses⟩ := hargs.ends
    refine .of_last (List.cons_append).symm hspans
      ⟨rfl, rfl, hcloses.1, fun u hu hstarts => .inr ?_⟩
    have hextends := hcloses.extendsExpr_eq_false hus (hknown t (by simp)) hu
    simp [Statement.goesOn, hextends, Token.Kind.ne_comma_of_startsStatement hstarts]

/-! ## What stands before a statement -/

/-- The second statement starts among the tokens, and the token before it is a colon, a remark or
data, or else the last one of the first statement. -/
def Beside (declarations : Declarations) (pred statement : Statement) (ts : List Token) : Prop :=
  ∃ front t u back, ts = front ++ t :: u :: back ∧ statement.OpensWith u ∧
    (t.kind = .sym .colon ∨ (t.kind = .word .rem ∨ t.kind = .word .data) ∨
      (pred.isCond = true ∨ statement.isLine = true) ∨
      ∃ earlier words, front = earlier ++ words ∧
        (CutOff pred words t u ∨ SideBySide declarations pred words t u back))

namespace Beside

variable {fewer more : Declarations} {pred statement : Statement} {ts all : List Token}

/-- Tokens before the first statement change nothing about what stands behind it. -/
theorem of_suffix (h : Beside fewer pred statement ts) (hsuffix : ts <:+ all) :
    Beside fewer pred statement all := by
  obtain ⟨front, t, u, back, rfl, hopens, hbefore⟩ := h
  obtain ⟨passed, rfl⟩ := hsuffix
  refine ⟨passed ++ front, t, u, back, by simp, hopens, ?_⟩
  refine hbefore.imp_right (Or.imp_right (Or.imp_right ?_))
  rintro ⟨earlier, words, rfl, hwords⟩
  exact ⟨passed ++ earlier, words, (List.append_assoc _ _ _).symm, hwords⟩

/-- More arrays leave fewer names that the first statement could go on behind. -/
theorem mono (h : Beside fewer pred statement ts) (hsubset : fewer ⊆ more) :
    Beside more pred statement ts := by
  obtain ⟨front, t, u, back, rfl, hopens, hbefore⟩ := h
  refine ⟨front, t, u, back, rfl, hopens, ?_⟩
  refine hbefore.imp_right (Or.imp_right (Or.imp_right ?_))
  rintro ⟨earlier, words, rfl, hwords⟩
  exact ⟨earlier, words, rfl, hwords.imp_right (·.mono hsubset)⟩

end Beside

/-- What follows a colon that is taken in if there is one. -/
theorem exists_afterSeparator (ts : List Token) :
    ∃ separator, ts = separator ++ afterSeparator ts ∧
      ∀ t ∈ separator, t.kind = .sym .colon := by
  cases ts with
  | nil => exact ⟨[], rfl, by simp⟩
  | cons t ts =>
    rw [afterSeparator]
    split
    next ht => exact ⟨[t], rfl, by simpa using ht⟩
    next => exact ⟨[], rfl, by simp⟩

/-- A statement that starts where another one ends stands beside it. -/
theorem EndsIn.beside {declarations : Declarations} {pred statement : Statement}
    {ts us : List Token} (h : EndsIn declarations pred ts us) (hstarts : StartsIn statement us) :
    Beside declarations pred statement ts := by
  obtain ⟨front, t, rest, rfl, hend⟩ := h
  obtain ⟨skipped, u, back, rfl, hopens, hlast⟩ := hstarts
  -- the tokens between the end of the first statement and the start of the second
  obtain ⟨between, rfl, hbetween⟩ : ∃ between, rest = between ++ u :: back ∧
      ∀ last ∈ between.getLast?, last.kind = .sym .colon ∨ last.kind = .word .rem := by
    rcases hend with ⟨hrest, -⟩ | ⟨rfl, -⟩
    · obtain ⟨separator, hseparator, hcolon⟩ := exists_afterSeparator rest
      refine ⟨separator ++ skipped, by rw [hseparator, ← hrest, List.append_assoc], ?_⟩
      intro last hmem
      rcases List.eq_nil_or_concat skipped with rfl | ⟨skipped, other, rfl⟩
      · rw [List.append_nil] at hmem
        exact .inl (hcolon last (List.mem_of_getLast? hmem))
      · exact hlast last (by simpa [← List.append_assoc] using hmem)
    · exact ⟨skipped, rfl, hlast⟩
  rcases List.eq_nil_or_concat between with rfl | ⟨between, last, rfl⟩
  · -- nothing is between them, so the first statement ends in the token before the second
    refine ⟨front, t, u, back, rfl, hopens, ?_⟩
    rcases hend with ⟨hrest, hdata | ⟨hspans, hends⟩⟩ | ⟨-, hcond⟩
    · exact .inr (.inl (.inr hdata))
    · cases hline : statement.isLine with
      | true => exact .inr (.inr (.inl (.inr rfl)))
      | false =>
        have hstarts := hopens.word hline
        have hrest : skipped ++ u :: back = u :: back := by
          rw [hrest, List.nil_append, afterSeparator, if_neg hopens.kind_ne.1]
        rw [hrest] at hspans
        refine .inr (.inr (.inr ⟨[], front, rfl, (hends.stops u rfl hstarts).imp_right ?_⟩))
        exact fun hstops => ⟨hspans, hends.isLine, hends.isCond, hends.ends, hstarts, hstops⟩
    · exact .inr (.inr (.inl (.inl hcond)))
  · refine ⟨front ++ t :: between, last, u, back, by simp, hopens, ?_⟩
    rcases hbetween last (by simp) with hcolon | hremark
    · exact .inl hcolon
    · exact .inr (.inl (.inl hremark))

/-- The neighbours in a list that starts with a statement. -/
theorem beside_cons {before declarations : Declarations} {statement : Statement}
    {statements : List Statement} {ts us : List Token} (hsubset : before ⊆ declarations)
    (hsuffix : us <:+ ts)
    (hinside : ∀ pair ∈ statement.neighbours, pair.1.isBareLine = false →
      Beside declarations pair.1 pair.2 ts)
    (hends : statement.isBareLine = false → EndsIn before statement ts us)
    (hstarts : ∀ next ∈ statements.head?, StartsIn next us)
    (htail : ∀ pair ∈ Statement.listNeighbours statements, pair.1.isBareLine = false →
      Beside declarations pair.1 pair.2 us) :
    ∀ pair ∈ Statement.listNeighbours (statement :: statements), pair.1.isBareLine = false →
      Beside declarations pair.1 pair.2 ts := by
  rw [Statement.listNeighbours, List.forall_mem_append, List.forall_mem_append]
  refine ⟨⟨hinside, ?_⟩, fun pair hpair hbare => (htail pair hpair hbare).of_suffix hsuffix⟩
  -- the pair of the first statement and the one behind it
  intro pair hpair hbare
  obtain ⟨next, hnext, rfl⟩ := List.mem_map.1 hpair
  exact ((hends hbare).beside (hstarts next (Option.mem_toList.1 hnext))).mono hsubset

/-- The neighbours in the lists of a clause stand beside each other in its tokens. -/
theorem Reading.beside {before after : Declarations} {ts us : List Token} {clause : Clause}
    (h : Reading before ts clause after us)
    (hsorted : ts.Pairwise fun first second => first.loc.Before second.loc)
    (hprecede : before.Precede ts) :
    ∀ pair ∈ clause.neighbours, pair.1.isBareLine = false → Beside after pair.1 pair.2 ts := by
  have hcons := fun (t : Token) (ts : List Token) => List.suffix_cons t ts
  induction h with
  | @cond _ _ t _ _ _ _ _ _ _ hcondition _ _ ih =>
    have hsuffix := (hcons _ _).trans (hcondition.suffix.trans (hcons t _))
    rw [Clause.neighbours_statement, Statement.neighbours, Branch.elseNeighbours, List.append_nil]
    exact fun pair hpair hbare => (ih (hsorted.sublist hsuffix.sublist) (hprecede.mono hsuffix)
      pair hpair hbare).of_suffix hsuffix
  | @condElse _ _ _ t _ _ _ _ _ _ _ _ _ _ hcondition _ hconsequence _ halternative ih ih' =>
    have hfirst := (hcons _ _).trans (hcondition.suffix.trans (hcons t _))
    have hsorted' := hsorted.sublist hfirst.sublist
    have hsecond := (hcons _ _).trans hconsequence.suffix
    -- the second arm is read where the arrays of the first one are declared
    have hbehind := ((hprecede.mono hfirst).behind hconsequence hsorted').mono (hcons _ _)
    rw [Clause.neighbours_statement, Statement.neighbours, Branch.elseNeighbours,
      List.forall_mem_append]
    refine ⟨fun pair hpair hbare => ?_, fun pair hpair hbare => ?_⟩
    · exact ((ih hsorted' (hprecede.mono hfirst) pair hpair hbare).mono
        halternative.before_subset).of_suffix hfirst
    · exact (ih' (hsorted'.sublist hsecond.sublist) hbehind pair hpair hbare).of_suffix
        (hsecond.trans hfirst)
  | @loop _ _ t _ _ _ _ _ _ _ _ _ _ hhead _ _ ih =>
    have hsuffix := hhead.suffix.trans (hcons t _)
    rw [Clause.neighbours_statement, Statement.neighbours]
    exact fun pair hpair hbare => (ih (hsorted.sublist hsuffix.sublist) (hprecede.mono hsuffix)
      pair hpair hbare).of_suffix hsuffix
  | @cons _ _ _ ts us _ found statements hfound hstatements ih ih' =>
    have hbehind := ih' (hsorted.sublist hfound.suffix.sublist) (hprecede.behind hfound hsorted)
    cases found with
    -- remarks and empty statements are nobody's neighbours
    | none => exact fun pair hpair hbare => (hbehind pair hpair hbare).of_suffix hfound.suffix
    | some statement =>
      rw [Clause.neighbours_statement] at ih
      have hinside pair hpair hbare :=
        (ih hsorted hprecede pair hpair hbare).mono hstatements.before_subset
      have hsubset := List.Subset.trans hfound.before_subset hstatements.before_subset
      exact beside_cons hsubset hfound.suffix hinside (hfound.endsIn hprecede)
        hstatements.head_startsIn hbehind
  | block _ ih => exact ih hsorted hprecede
  | jump => simp [Clause.neighbours, Branch.neighbours]
  | jumpBlock htarget hrest ih =>
    -- the implied jump is the first of the statements, and ends in its label
    have hsuffix := (afterSeparator_suffix _).trans htarget.suffix
    exact beside_cons hrest.before_subset hsuffix (by simp [Statement.neighbours])
      (fun _ => .of_ends htarget.ends (.label htarget) rfl rfl fun _ _ _ _ _ => rfl)
      hrest.head_startsIn (ih (hsorted.sublist hsuffix.sublist) (hprecede.mono hsuffix))
  | _ => simp [Clause.neighbours, Statement.listNeighbours, Statement.neighbours]

/-! ## Listings -/

end LineBasic
