import LineBasic.Grammar.Statement

/-!
# The grammar as a relation

How stretches of tokens read as expressions, statements and programs, without cursors, limits or
failures. `ExprReading declared ts phrase us` says that the tokens `ts`, up to the rest `us`, read
as the phrase when the names in `declared` are those of arrays; `Reading` says the same for
statements and also gives the arrays declared before and after.

The relation looks at the next token where that is what ends a stretch: nothing behind a whole
expression extends it, no bare argument stands behind a name that could be called with it, and no
name stands behind `NEXT` without a counter.
-/

namespace LineBasic

/-- The arrays declared so far, the latest first. -/
abbrev Declarations := List (String × Location)

/-- Whether a name is that of a declared array. -/
def Declarations.has (arrays : Declarations) (name : String) : Bool :=
  (arrays.lookup name).isSome

/-! ## Expressions -/

/-- What the tokens of an expression read as. -/
inductive Phrase where
  /-- An expression. -/
  | expr (expression : Expr)
  /-- Expressions with commas between them, at least one. -/
  | list (expressions : List Expr)
  /-- Arguments in parentheses. -/
  | arguments (expressions : List Expr)

/-- The tokens read as the phrase, up to the rest. -/
inductive ExprReading (declared : String → Bool) : List Token → Phrase → List Token → Prop
  /-- A name on its own. Behind one that is not that of an array stands nothing that it could be
  called with. -/
  | name {t : Token} {ts : List Token} (ht : t.kind = .ident)
      (hts : declared t.literal = false → ∀ n ∈ ts.head?, n.kind ≠ .ident ∧ n.kind ≠ .num) :
      ExprReading declared (t :: ts) (.expr (.var t.literal [] t.loc)) ts
  /-- An element of an array. -/
  | element {t p q : Token} {ts us : List Token} {indices : List Expr} (ht : t.kind = .ident)
      (hdeclared : declared t.literal = true) (hp : p.kind = .sym .lparen)
      (hindices : ExprReading declared ts (.list indices) (q :: us))
      (hq : q.kind = .sym .rparen) :
      ExprReading declared (t :: p :: ts) (.expr (.var t.literal indices t.loc)) us
  /-- A call with bare arguments. -/
  | bareCall {t : Token} {ts us : List Token} {args : List Expr} (ht : t.kind = .ident)
      (hdeclared : declared t.literal = false) (hargs : ExprReading declared ts (.list args) us) :
      ExprReading declared (t :: ts) (.expr (.call t.literal args t.loc)) us
  /-- A call with arguments in parentheses. -/
  | call {t : Token} {ts us : List Token} {args : List Expr} (ht : t.kind = .ident)
      (hdeclared : declared t.literal = false)
      (hargs : ExprReading declared ts (.arguments args) us) :
      ExprReading declared (t :: ts) (.expr (.call t.literal args t.loc)) us
  /-- A call of a name that stands in parentheses of its own. Nothing is asked of the name. -/
  | groupedCall {p q : Token} {ts us vs : List Token} {name : String} {loc : Location}
      {args : List Expr} (hp : p.kind = .sym .lparen)
      (hname : ExprReading declared ts (.expr (.var name [] loc)) (q :: us))
      (hq : q.kind = .sym .rparen) (hargs : ExprReading declared us (.arguments args) vs) :
      ExprReading declared (p :: ts) (.expr (.call name args loc)) vs
  /-- An integer. -/
  | int {t : Token} {ts : List Token} {value : Int} (ht : t.kind = .num)
      (hvalue : integerValue? t.literal = some value) :
      ExprReading declared (t :: ts) (.expr (.int ⟨value, t.literal, t.loc⟩)) ts
  /-- A string. -/
  | str {t : Token} {ts : List Token} (ht : t.kind = .str) :
      ExprReading declared (t :: ts) (.expr (.str t.literal t.loc)) ts
  /-- An expression in parentheses. -/
  | grouped {p q : Token} {ts us : List Token} {e : Expr} (hp : p.kind = .sym .lparen)
      (he : ExprReading declared ts (.expr e) (q :: us)) (hq : q.kind = .sym .rparen) :
      ExprReading declared (p :: ts) (.expr e) us
  /-- An operator before its operand. -/
  | unary {t : Token} {ts us : List Token} {op : UnaryOp} {e : Expr}
      (ht : UnaryOp.ofKind? t.kind = some op) (he : ExprReading declared ts (.expr e) us) :
      ExprReading declared (t :: ts) (.expr (.unary op e t.loc)) us
  /-- An operator between its operands. -/
  | binary {t : Token} {ts us vs : List Token} {op : BinaryOp} {left right : Expr}
      (hleft : ExprReading declared ts (.expr left) (t :: us))
      (ht : BinaryOp.ofKind? t.kind = some op)
      (hright : ExprReading declared us (.expr right) vs) :
      ExprReading declared ts (.expr (.binary op left right t.loc)) vs
  /-- A list of one expression. -/
  | one {ts us : List Token} {e : Expr} (he : ExprReading declared ts (.expr e) us) :
      ExprReading declared ts (.list [e]) us
  /-- A list of several expressions. -/
  | cons {t : Token} {ts us vs : List Token} {e : Expr} {es : List Expr}
      (he : ExprReading declared ts (.expr e) (t :: us)) (ht : t.kind = .sym .comma)
      (hes : ExprReading declared us (.list es) vs) :
      ExprReading declared ts (.list (e :: es)) vs
  /-- No arguments. -/
  | noArguments {p q : Token} {ts : List Token} (hp : p.kind = .sym .lparen)
      (hq : q.kind = .sym .rparen) : ExprReading declared (p :: q :: ts) (.arguments []) ts
  /-- Some arguments. -/
  | someArguments {p q : Token} {ts us : List Token} {args : List Expr}
      (hp : p.kind = .sym .lparen) (hargs : ExprReading declared ts (.list args) (q :: us))
      (hq : q.kind = .sym .rparen) : ExprReading declared (p :: ts) (.arguments args) us

/-- A list of expressions has at least one. -/
theorem ExprReading.list_ne_nil {declared : String → Bool} {ts us : List Token} {es : List Expr}
    (h : ExprReading declared ts (.list es) us) : es ≠ [] := by
  cases h <;> exact List.cons_ne_nil _ _

/-! ## Parts of statements -/

/-- No token behind a whole expression extends it. -/
def EndsExpr (us : List Token) : Prop :=
  ∀ n ∈ us.head?, Grammar.extensionPower? n.kind = none

/-- The tokens after the colon that ends a statement, if there is one. -/
def afterSeparator : List Token → List Token
  | t :: ts => if t.kind = .sym .colon then ts else t :: ts
  | [] => []

/-- The tokens read as items with commas between them, at least one. -/
inductive CommaReading {α : Type} (item : List Token → α → List Token → Prop) :
    List Token → List α → List Token → Prop
  /-- One item. -/
  | one {ts us : List Token} {value : α} (hvalue : item ts value us) :
      CommaReading item ts [value] us
  /-- Several items. -/
  | cons {t : Token} {ts us vs : List Token} {value : α} {values : List α}
      (hvalue : item ts value (t :: us)) (ht : t.kind = .sym .comma)
      (hvalues : CommaReading item us values vs) : CommaReading item ts (value :: values) vs

/-- The tokens read as the label of a jump. -/
inductive TargetReading : List Token → JumpTarget → List Token → Prop
  /-- A line number. -/
  | number {t : Token} {ts : List Token} (ht : t.kind = .num) :
      TargetReading (t :: ts) ⟨t.literal, t.loc⟩ ts
  /-- A named label. -/
  | label {t n : Token} {ts : List Token} (ht : t.kind = .sym .asterisk) (hn : n.kind = .ident) :
      TargetReading (t :: n :: ts) ⟨n.literal, t.loc⟩ ts

/-- The tokens read as the size of an array in one dimension. -/
inductive SizeReading : List Token → IntLit → List Token → Prop
  /-- An integer. -/
  | int {t : Token} {ts : List Token} {value : Int} (ht : t.kind = .num)
      (hvalue : integerValue? t.literal = some value) :
      SizeReading (t :: ts) ⟨value, t.literal, t.loc⟩ ts

/-- The tokens read as one array of a declaration. -/
inductive DeclReading : List Token → ArrayDecl → List Token → Prop
  /-- A name and the sizes in parentheses. -/
  | array {n p q : Token} {ts us : List Token} {sizes : List IntLit} (hn : n.kind = .ident)
      (hp : p.kind = .sym .lparen) (hsizes : CommaReading SizeReading ts sizes (q :: us))
      (hq : q.kind = .sym .rparen) : DeclReading (n :: p :: ts) ⟨n.literal, sizes, n.loc⟩ us

/-- The tokens read as the step of a loop that starts at a place. -/
inductive StepReading (declared : String → Bool) (loc : Location) :
    List Token → Expr → List Token → Prop
  /-- A step. -/
  | given {t : Token} {ts us : List Token} {step : Expr} (ht : t.kind = .word .step)
      (hstep : ExprReading declared ts (.expr step) us) :
      StepReading declared loc (t :: ts) step us
  /-- No step, which means a step of one. -/
  | default {ts : List Token} : StepReading declared loc ts (.int ⟨1, "1", loc⟩) ts

/-- The tokens end the head of a loop. -/
inductive HeadEndReading : List Token → List Token → Prop
  /-- A colon. -/
  | colon {t : Token} {ts : List Token} (ht : t.kind = .sym .colon) : HeadEndReading (t :: ts) ts
  /-- A new line. -/
  | line {t : Token} {ts : List Token} (ht : t.kind = .lineNo) :
      HeadEndReading (t :: ts) (t :: ts)

/-- The tokens after `FOR` read as the head of a loop that starts at a place. -/
inductive HeadReading (declared : String → Bool) (loc : Location) :
    List Token → String → Expr → Expr → Expr → List Token → Prop
  /-- The counter, its bounds and its step. -/
  | head {n e o : Token} {ts us vs ws xs : List Token} {first last step : Expr}
      (hn : n.kind = .ident) (he : e.kind = .sym .eq)
      (hfirst : ExprReading declared ts (.expr first) (o :: us)) (ho : o.kind = .word .to_)
      (hlast : ExprReading declared us (.expr last) vs)
      (hstep : StepReading declared loc vs step ws) (hend : HeadEndReading ws xs) :
      HeadReading declared loc (n :: e :: ts) n.literal first last step xs

/-- The tokens read as the end of a loop. -/
inductive LoopEndReading : List Token → List Token → Prop
  /-- `NEXT` with a counter. -/
  | named {t n : Token} {ts : List Token} (ht : t.kind = .word .next) (hn : n.kind = .ident) :
      LoopEndReading (t :: n :: ts) (afterSeparator ts)
  /-- `NEXT` on its own. -/
  | bare {t : Token} {ts : List Token} (ht : t.kind = .word .next)
      (hts : ∀ n ∈ ts.head?, n.kind ≠ .ident) : LoopEndReading (t :: ts) (afterSeparator ts)

/-- The reserved word of a kind of jump. -/
def JumpKind.word : JumpKind → Keyword
  | goto => .goto
  | gosub => .gosub

/-! ## Statements -/

/-- What the tokens of statements read as. -/
inductive Clause where
  /-- A statement, or a remark or an empty statement. -/
  | statement (found : Option Statement)
  /-- Several statements. -/
  | block (statements : List Statement)
  /-- An arm of an `IF` that `THEN` or `ELSE` opens at a place. -/
  | branch (loc : Location) (branch : Branch)

/-- The declarations once some arrays are declared. -/
def Declarations.adding (arrays : Declarations) (declared : List ArrayDecl) : Declarations :=
  (declared.map fun array => (array.name, array.loc)).reverse ++ arrays

/-- The tokens read as the clause, up to the rest. The declarations before and after stand
before and after it. -/
inductive Reading : Declarations → List Token → Clause → Declarations → List Token → Prop
  /-- A remark. -/
  | remark {arrays : Declarations} {t : Token} {ts : List Token} (ht : t.kind = .word .rem) :
      Reading arrays (t :: ts) (.statement none) arrays (afterSeparator ts)
  /-- An empty statement. -/
  | empty {arrays : Declarations} {t : Token} {ts : List Token} (ht : t.kind = .sym .colon) :
      Reading arrays (t :: ts) (.statement none) arrays ts
  /-- A line number. -/
  | lineNumber {arrays : Declarations} {t : Token} {ts : List Token} (ht : t.kind = .lineNo) :
      Reading arrays (t :: ts) (.statement (some (.lineNumber t.literal none t.loc))) arrays ts
  /-- A line number with data. -/
  | dataLine {arrays : Declarations} {t d : Token} {ts : List Token} (ht : t.kind = .lineNo)
      (hd : d.kind = .word .data) :
      Reading arrays (t :: d :: ts)
        (.statement (some (.lineNumber t.literal (some ⟨t.literal, d.literal, d.loc⟩) t.loc)))
        arrays (afterSeparator ts)
  /-- A label. -/
  | label {arrays : Declarations} {t n : Token} {ts : List Token} (ht : t.kind = .sym .asterisk)
      (hn : n.kind = .ident) :
      Reading arrays (t :: n :: ts) (.statement (some (.label n.literal t.loc))) arrays
        (afterSeparator ts)
  /-- A declaration of arrays. -/
  | dim {arrays : Declarations} {t : Token} {ts us : List Token} {declared : List ArrayDecl}
      (ht : t.kind = .word .dim) (hdeclared : CommaReading DeclReading ts declared us) :
      Reading arrays (t :: ts) (.statement (some (.dim declared t.loc))) (arrays.adding declared)
        (afterSeparator us)
  /-- A choice with one arm. -/
  | cond {before after : Declarations} {t u : Token} {ts us vs : List Token} {condition : Expr}
      {consequence : Branch} (ht : t.kind = .word .if_)
      (hcondition : ExprReading before.has ts (.expr condition) (u :: us))
      (hu : u.kind = .word .then_)
      (hconsequence : Reading before us (.branch u.loc consequence) after vs) :
      Reading before (t :: ts) (.statement (some (.cond condition consequence none t.loc))) after vs
  /-- A choice with two arms. -/
  | condElse {before middle after : Declarations} {t u v : Token} {ts us vs ws : List Token}
      {condition : Expr} {consequence alternative : Branch} (ht : t.kind = .word .if_)
      (hcondition : ExprReading before.has ts (.expr condition) (u :: us))
      (hu : u.kind = .word .then_)
      (hconsequence : Reading before us (.branch u.loc consequence) middle (v :: vs))
      (hv : v.kind = .word .else_)
      (halternative : Reading middle vs (.branch v.loc alternative) after ws) :
      Reading before (t :: ts)
        (.statement (some (.cond condition consequence (some alternative) t.loc))) after ws
  /-- A jump to one of several labels. -/
  | on {arrays : Declarations} {t j : Token} {ts us vs : List Token} {value : Expr}
      {kind : JumpKind} {targets : List JumpTarget} (ht : t.kind = .word .on)
      (hvalue : ExprReading arrays.has ts (.expr value) (j :: us))
      (hj : j.kind = .word kind.word)
      (htargets : CommaReading TargetReading us targets vs) :
      Reading arrays (t :: ts) (.statement (some (.on value kind targets t.loc))) arrays
        (afterSeparator vs)
  /-- A jump. -/
  | goto {arrays : Declarations} {t : Token} {ts us : List Token} {target : JumpTarget}
      (ht : t.kind = .word .goto) (htarget : TargetReading ts target us) :
      Reading arrays (t :: ts) (.statement (some (.goto target t.loc))) arrays (afterSeparator us)
  /-- A jump to a subroutine. -/
  | gosub {arrays : Declarations} {t : Token} {ts us : List Token} {target : JumpTarget}
      (ht : t.kind = .word .gosub) (htarget : TargetReading ts target us) :
      Reading arrays (t :: ts) (.statement (some (.gosub target t.loc))) arrays (afterSeparator us)
  /-- The way back from a subroutine. -/
  | ret {arrays : Declarations} {t : Token} {ts : List Token} (ht : t.kind = .word .return_) :
      Reading arrays (t :: ts) (.statement (some (.ret t.loc))) arrays (afterSeparator ts)
  /-- A loop. -/
  | loop {before after : Declarations} {t : Token} {ts us vs ws : List Token} {counter : String}
      {first last step : Expr} {body : List Statement} (ht : t.kind = .word .for_)
      (hhead : HeadReading before.has t.loc ts counter first last step us)
      (hbody : Reading before us (.block body) after vs) (hend : LoopEndReading vs ws) :
      Reading before (t :: ts) (.statement (some (.loop counter first last step body t.loc))) after
        ws
  /-- An assignment to a variable. -/
  | assign {arrays : Declarations} {t e : Token} {ts us : List Token} {value : Expr}
      (ht : t.kind = .ident) (he : e.kind = .sym .eq)
      (hvalue : ExprReading arrays.has ts (.expr value) us) (hus : EndsExpr us) :
      Reading arrays (t :: e :: ts) (.statement (some (.assign t.literal [] value t.loc))) arrays
        (afterSeparator us)
  /-- An assignment to an element of an array. -/
  | assignElement {arrays : Declarations} {t p q e : Token} {ts us vs : List Token}
      {indices : List Expr} {value : Expr} (ht : t.kind = .ident)
      (hdeclared : arrays.has t.literal = true) (hp : p.kind = .sym .lparen)
      (hindices : ExprReading arrays.has ts (.list indices) (q :: e :: us))
      (hq : q.kind = .sym .rparen) (he : e.kind = .sym .eq)
      (hvalue : ExprReading arrays.has us (.expr value) vs) (hvs : EndsExpr vs) :
      Reading arrays (t :: p :: ts) (.statement (some (.assign t.literal indices value t.loc)))
        arrays (afterSeparator vs)
  /-- A call without arguments. -/
  | plainCall {arrays : Declarations} {t : Token} {ts : List Token} (ht : t.kind = .ident)
      (hdeclared : arrays.has t.literal = false)
      (hts : ∀ n ∈ ts.head?, n.kind.isTerminator = true) :
      Reading arrays (t :: ts) (.statement (some (.call t.literal [] t.loc))) arrays
        (afterSeparator ts)
  /-- A call with arguments in parentheses. -/
  | call {arrays : Declarations} {t : Token} {ts us : List Token} {args : List Expr}
      (ht : t.kind = .ident) (hdeclared : arrays.has t.literal = false)
      (hargs : ExprReading arrays.has ts (.arguments args) us) :
      Reading arrays (t :: ts) (.statement (some (.call t.literal args t.loc))) arrays
        (afterSeparator us)
  /-- A call with bare arguments. -/
  | bareCall {arrays : Declarations} {t : Token} {ts us : List Token} {args : List Expr}
      (ht : t.kind = .ident) (hdeclared : arrays.has t.literal = false)
      (hargs : ExprReading arrays.has ts (.list args) us) (hus : EndsExpr us) :
      Reading arrays (t :: ts) (.statement (some (.call t.literal args t.loc))) arrays
        (afterSeparator us)
  /-- No statements. -/
  | nil {arrays : Declarations} {ts : List Token} : Reading arrays ts (.block []) arrays ts
  /-- A statement and those after it. -/
  | cons {before middle after : Declarations} {ts us vs : List Token} {found : Option Statement}
      {statements : List Statement} (hfound : Reading before ts (.statement found) middle us)
      (hstatements : Reading middle us (.block statements) after vs) :
      Reading before ts (.block (found.toList ++ statements)) after vs
  /-- An arm that starts with no label. -/
  | block {before after : Declarations} {ts us : List Token} {loc : Location}
      {statements : List Statement} (hstatements : Reading before ts (.block statements) after us) :
      Reading before ts (.branch loc (.block statements)) after us
  /-- An arm that is a label. -/
  | jump {before after : Declarations} {ts us vs : List Token} {loc : Location}
      {target : JumpTarget} (htarget : TargetReading ts target us)
      (hrest : Reading before (afterSeparator us) (.block []) after vs) :
      Reading before ts (.branch loc (.goto target)) after vs
  /-- An arm that starts with a label. -/
  | jumpBlock {before after : Declarations} {ts us vs : List Token} {loc : Location}
      {target : JumpTarget} {statements : List Statement} (htarget : TargetReading ts target us)
      (hrest : Reading before (afterSeparator us) (.block statements) after vs) :
      Reading before ts (.branch loc (.block (.goto target loc :: statements))) after vs

/-! ## What is left over

The rest of a reading is a suffix of its tokens. -/

/-- An expression, or a list of them, leaves a suffix of its tokens. -/
theorem ExprReading.suffix {declared : String → Bool} {ts us : List Token} {phrase : Phrase}
    (h : ExprReading declared ts phrase us) : us <:+ ts := by
  induction h with
  | name => exact List.suffix_cons _ _
  | element _ _ _ _ _ ih =>
    exact (List.suffix_cons _ _).trans
      (ih.trans ((List.suffix_cons _ _).trans (List.suffix_cons _ _)))
  | bareCall _ _ _ ih | call _ _ _ ih => exact ih.trans (List.suffix_cons _ _)
  | groupedCall _ _ _ _ ih ih' =>
    exact ih'.trans ((List.suffix_cons _ _).trans (ih.trans (List.suffix_cons _ _)))
  | int | str => exact List.suffix_cons _ _
  | grouped _ _ _ ih => exact (List.suffix_cons _ _).trans (ih.trans (List.suffix_cons _ _))
  | unary _ _ ih => exact ih.trans (List.suffix_cons _ _)
  | binary _ _ _ ih ih' => exact ih'.trans ((List.suffix_cons _ _).trans ih)
  | one _ ih => exact ih
  | cons _ _ _ ih ih' => exact ih'.trans ((List.suffix_cons _ _).trans ih)
  | noArguments => exact (List.suffix_cons _ _).trans (List.suffix_cons _ _)
  | someArguments _ _ _ ih => exact (List.suffix_cons _ _).trans (ih.trans (List.suffix_cons _ _))

/-- A list with commas leaves a suffix of its tokens if each item does. -/
theorem CommaReading.suffix {α : Type} {item : List Token → α → List Token → Prop}
    (hitem : ∀ ts value us, item ts value us → us <:+ ts) {ts us : List Token} {values : List α}
    (h : CommaReading item ts values us) : us <:+ ts := by
  induction h with
  | one hvalue => exact hitem _ _ _ hvalue
  | cons hvalue _ _ ih => exact ih.trans ((List.suffix_cons _ _).trans (hitem _ _ _ hvalue))

/-- A label leaves a suffix of its tokens. -/
theorem TargetReading.suffix {ts us : List Token} {target : JumpTarget}
    (h : TargetReading ts target us) : us <:+ ts := by
  cases h with
  | number => exact List.suffix_cons _ _
  | label => exact (List.suffix_cons _ _).trans (List.suffix_cons _ _)

/-- The size of an array leaves a suffix of its tokens. -/
theorem SizeReading.suffix {ts us : List Token} {size : IntLit} (h : SizeReading ts size us) :
    us <:+ ts := by
  cases h with
  | int => exact List.suffix_cons _ _

/-- The declaration of an array leaves a suffix of its tokens. -/
theorem DeclReading.suffix {ts us : List Token} {array : ArrayDecl}
    (h : DeclReading ts array us) : us <:+ ts := by
  cases h with
  | array _ _ hsizes =>
    have hsuffix := hsizes.suffix fun _ _ _ => SizeReading.suffix
    exact (List.suffix_cons _ _).trans
      (hsuffix.trans ((List.suffix_cons _ _).trans (List.suffix_cons _ _)))

/-- The step of a loop leaves a suffix of its tokens, and all of them if it is missing. -/
theorem StepReading.suffix {declared : String → Bool} {loc : Location} {ts us : List Token}
    {step : Expr} (h : StepReading declared loc ts step us) : us <:+ ts := by
  cases h with
  | given _ hstep => exact hstep.suffix.trans (List.suffix_cons _ _)
  | default => exact List.suffix_rfl

/-- The end of the head of a loop leaves a suffix of its tokens. -/
theorem HeadEndReading.suffix {ts us : List Token} (h : HeadEndReading ts us) : us <:+ ts := by
  cases h with
  | colon => exact List.suffix_cons _ _
  | line => exact List.suffix_rfl

/-- The head of a loop leaves a suffix of its tokens. -/
theorem HeadReading.suffix {declared : String → Bool} {loc : Location} {ts us : List Token}
    {counter : String} {first last step : Expr}
    (h : HeadReading declared loc ts counter first last step us) : us <:+ ts := by
  cases h with
  | head _ _ hfirst _ hlast hstep hend =>
    refine hend.suffix.trans (hstep.suffix.trans (hlast.suffix.trans ?_))
    exact (List.suffix_cons _ _).trans
      (hfirst.suffix.trans ((List.suffix_cons _ _).trans (List.suffix_cons _ _)))

/-- Without the colon in front of them, tokens are a suffix of what they were. -/
theorem afterSeparator_suffix (ts : List Token) : afterSeparator ts <:+ ts := by
  unfold afterSeparator
  split
  · split
    · exact List.suffix_cons _ _
    · exact List.suffix_rfl
  · exact List.suffix_rfl

/-- The end of a loop leaves a suffix of its tokens. -/
theorem LoopEndReading.suffix {ts us : List Token} (h : LoopEndReading ts us) : us <:+ ts := by
  cases h with
  | named =>
    exact (afterSeparator_suffix _).trans ((List.suffix_cons _ _).trans (List.suffix_cons _ _))
  | bare => exact (afterSeparator_suffix _).trans (List.suffix_cons _ _)

/-- Statements leave a suffix of their tokens. -/
theorem Reading.suffix {before after : Declarations} {ts us : List Token} {clause : Clause}
    (h : Reading before ts clause after us) : us <:+ ts := by
  have hsep := afterSeparator_suffix
  -- a token of its own, a separator or a part is dropped at each step
  have hcons := fun (t : Token) (ts : List Token) => List.suffix_cons t ts
  induction h with
  | remark => exact (hsep _).trans (hcons _ _)
  | empty | lineNumber => exact hcons _ _
  | dataLine | label => exact (hsep _).trans ((hcons _ _).trans (hcons _ _))
  | dim _ hdeclared =>
    exact (hsep _).trans ((hdeclared.suffix fun _ _ _ => DeclReading.suffix).trans (hcons _ _))
  | cond _ hcondition _ _ ih =>
    exact ih.trans ((hcons _ _).trans (hcondition.suffix.trans (hcons _ _)))
  | condElse _ hcondition _ _ _ _ ih ih' =>
    exact ih'.trans ((hcons _ _).trans
      (ih.trans ((hcons _ _).trans (hcondition.suffix.trans (hcons _ _)))))
  | on _ hvalue _ htargets =>
    exact (hsep _).trans ((htargets.suffix fun _ _ _ => TargetReading.suffix).trans
      ((hcons _ _).trans (hvalue.suffix.trans (hcons _ _))))
  | goto _ htarget | gosub _ htarget => exact (hsep _).trans (htarget.suffix.trans (hcons _ _))
  | ret => exact (hsep _).trans (hcons _ _)
  | loop _ hhead _ hend ih =>
    exact hend.suffix.trans (ih.trans (hhead.suffix.trans (hcons _ _)))
  | assign _ _ hvalue =>
    exact (hsep _).trans (hvalue.suffix.trans ((hcons _ _).trans (hcons _ _)))
  | assignElement _ _ _ hindices _ _ hvalue =>
    exact (hsep _).trans (hvalue.suffix.trans ((hcons _ _).trans ((hcons _ _).trans
      (hindices.suffix.trans ((hcons _ _).trans (hcons _ _))))))
  | plainCall => exact (hsep _).trans (hcons _ _)
  | call _ _ hargs | bareCall _ _ hargs => exact (hsep _).trans (hargs.suffix.trans (hcons _ _))
  | nil => exact List.suffix_rfl
  | cons _ _ ih ih' => exact ih'.trans ih
  | block _ ih => exact ih
  | jump htarget _ ih | jumpBlock htarget _ ih => exact ih.trans ((hsep _).trans htarget.suffix)

end LineBasic
