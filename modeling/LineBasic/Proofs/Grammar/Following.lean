import LineBasic.Proofs.Grammar.Seam

/-!
# The grammar across a seam

Every rule of the grammar comes to the same outcome in the joined parse as in the parse of the
part alone. Expressions and the statements without inner statements do so in any case
(`expression_carried`). A loop reads on where the part ends, so a statement does so only if
nothing is found wrong with the part, or if no loop starts in it, or if nothing comes after it
(`statement_carried`). Where a colon comes after the part, neither a loop nor an `IF` starts in it.
-/

namespace LineBasic.Grammar

open Parse Cursor Seam

variable {seam : Seam} {cursor joined : Cursor}

/-! ## Expressions -/

section Expressions

variable {inner : Nat → Parse Expr}

/-- The nesting limit is hit in both parses at the same token. -/
theorem tooDeep_follows {α : Type} {ending : Bool} {f : α → α} :
    seam.Follows ending f tooDeep tooDeep :=
  fun _ _ hinside => .error (by rw [hinside.current]; rfl) hinside

/-- A number that does not fit is reported in both parses. -/
theorem integer_follows : seam.Follows false (·.relocate seam.place) integer integer := by
  intro cursor joined hinside
  rw [integer_apply, integer_apply, hinside.current, Token.literal_relocate]
  split
  · exact .ok rfl hinside
  · exact .error rfl hinside

/-- The parser of the inner expressions follows the seam and does nothing but move on. -/
structure Carried (seam : Seam) (inner : Nat → Parse Expr) : Prop where
  follows : ∀ power, seam.Follows false (·.relocate seam.place) (inner power) (inner power)
  moves : ∀ power, (inner power).Keeps Moves

/-- A parser that only moves on reports nothing and forgets no array. -/
theorem keeps_leads {α : Type} {x : Parse α} (h : x.Keeps Moves) : x.Keeps Leads := by
  intro cursor
  have hcursor := h cursor
  exact ⟨hcursor.tokens, hcursor.finish, hcursor.arrays ▸ List.suffix_rfl,
    hcursor.journal ▸ List.suffix_rfl⟩

/-- Where the part ends in front of an expression, the diagnostic names what follows instead. -/
theorem nextExpression_follows (h : Carried seam inner) (power : Nat) :
    seam.Follows false (·.relocate seam.place) (nextExpression inner power)
      (nextExpression inner power) := by
  refine .peek fun cursor joined hinside => ?_
  -- the end and a line number are both terminators
  rw [seam.image_kind_congr Token.Kind.isTerminator rfl rfl]
  split
  next => exact .error (revise_noOperand _).symm hinside
  next hnext =>
    have hne : cursor.peek.kind ≠ .eof := fun heof => hnext (heof ▸ rfl)
    exact .advance hinside hne (h.follows power)

/-- A comma behind the last expression is one of the part, so both lists end together. -/
theorem expressionList_follows (h : Carried seam inner) :
    seam.Follows false (List.map (·.relocate seam.place)) (expressionList inner)
      (expressionList inner) :=
  .commaList (nextExpression_follows h _)
    (keeps_leads (nextExpression_keeps drift_moves h.moves _))

/-- The closing parenthesis is looked for at the same place in both parses. -/
theorem subscripts_follows (h : Carried seam inner) :
    seam.Follows false (List.map (·.relocate seam.place)) (subscripts inner) (subscripts inner) :=
  .bind (expressionList_follows h) fun _ =>
    .bind (.expect (by decide)) fun _ => .pure rfl

/-- An empty pair of parentheses in one parse is one in the other. -/
theorem arguments_follows (h : Carried seam inner) :
    seam.Follows false (List.map (·.relocate seam.place)) (arguments inner) (arguments inner) :=
  .ifNext (by decide) (fun _ => .pure rfl) (subscripts_follows h)

/-- A name is read the same way since both parses have declared the same arrays. -/
theorem named_follows (h : Carried seam inner) :
    seam.Follows false (·.relocate seam.place) (named inner) (named inner) := by
  refine .bind .current fun token => .peek fun cursor joined hinside => ?_
  have hargument := seam.image_kind_congr (fun kind => kind = .ident ∨ kind = .num) (by decide)
    (by decide) cursor.peek
  have hparen : (seam.image cursor.peek).kind = .sym .lparen ↔ cursor.peek.kind = .sym .lparen :=
    seam.image_kind_eq_iff (by decide) _
  simp only [hargument, hparen]
  refine .ifArray hinside ?_ ?_
  · -- a declared array, with subscripts if a parenthesis follows
    split
    next hnext =>
      refine .advance hinside (by rw [hnext]; decide) ?_
      refine .bind (subscripts_follows h) fun _ => .pure ?_
      simp [Expr.relocate]
    next => exact .ok rfl hinside
  · -- any other name, with bare arguments if a name or a number follows
    split
    · refine (expressionList_follows h hinside).bind fun _ hlast => .ok ?_ hlast
      simp [Expr.relocate]
    · exact .ok rfl hinside

/-- A group that the part leaves open fails in both parses. -/
theorem grouped_follows (h : Carried seam inner) :
    seam.Follows false (·.relocate seam.place) (grouped inner) (grouped inner) :=
  .bind (nextExpression_follows h _) fun _ =>
    .bind (.expect (by decide)) fun _ => .pure rfl

/-- The operand of a sign may be missing at the end of the part, and then is in both parses. -/
theorem unary_follows (h : Carried seam inner) (op : UnaryOp) :
    seam.Follows false (·.relocate seam.place) (unary inner op) (unary inner op) :=
  .bind .current fun _ => .bind (nextExpression_follows h _) fun _ => .pure rfl

/-- What a token starts depends on its kind alone, and that is the same in both parses. -/
theorem operand_follows (h : Carried seam inner) :
    seam.Follows false (·.relocate seam.place) (operand inner) (operand inner) := by
  intro cursor joined hinside
  rw [operand_apply, operand_apply, hinside.current]
  simp only [Token.kind_relocate, Token.literal_relocate, Token.loc_relocate]
  split
  · exact named_follows h hinside
  · exact (integer_follows hinside).bind fun _ hlast => .ok rfl hlast
  · exact .ok rfl hinside
  · exact grouped_follows h hinside
  · exact .error rfl hinside
  · split
    · exact unary_follows h _ hinside
    · -- this diagnostic is about the current token, which is one of the part
      refine .error ?_ hinside
      rw [revise_noOperand, seam.image_of_ne_eof hinside.current_kind]
      rfl

/-- Only a plain name can be called, in the joined parse as in the part. -/
theorem called_follows (h : Carried seam inner) (function : Expr) :
    seam.Follows false (·.relocate seam.place) (called inner function)
      (called inner (function.relocate seam.place)) := by
  intro cursor joined hinside
  rw [called_apply, called_apply]
  cases function with
  | var name indices loc =>
    cases indices with
    | nil =>
      refine (arguments_follows h hinside).bind fun _ hlast => .ok ?_ hlast
      simp [Expr.relocate]
    | cons head tail => exact .error rfl hinside
  | _ => exact .error rfl hinside

/-- Neither a line number nor a colon goes on with an expression, nor does the end. -/
theorem canExtend_joined (power : Nat) (hinside : seam.Inside cursor joined) :
    canExtend power joined = canExtend power cursor := by
  unfold canExtend
  rw [hinside.peek, seam.image_kind_congr extensionPower? rfl rfl]

/-- An operator or a call that goes on with an expression of the part takes the same operands. -/
theorem extend_agree (h : Carried seam inner) (left : Expr) (hinside : seam.Inside cursor joined)
    (hpeek : cursor.peek.kind ≠ .eof) :
    seam.Agree false (·.relocate seam.place) (extend inner left cursor)
      (extend inner (left.relocate seam.place) joined) := by
  refine .advance hinside hpeek ?_
  rw [Token.kind_relocate, Token.loc_relocate]
  split
  · exact .bind (nextExpression_follows h _) fun _ => .pure rfl
  · exact called_follows h left

/-- A run of the expression parser comes to the same outcome in the joined parse. -/
theorem expression_carried (seam : Seam) (levels : Nat) : Carried seam (expression levels) := by
  induction levels with
  | zero => exact ⟨fun _ => tooDeep_follows, fun _ => tooDeep_keeps drift_moves⟩
  | succ levels ih =>
    refine ⟨fun power => ?_, expression_keeps drift_moves (levels + 1)⟩
    refine .bind (operand_follows ih) (.iterate ?_ ?_ ?_)
    · exact fun _ _ => canExtend_joined power
    · intro left _ _ hinside hmore
      exact extend_agree ih left hinside (peek_kind_of_canExtend hmore)
    · exact fun _ _ _ _ hmore => length_extend_lt ih.moves (peek_kind_of_canExtend hmore)

end Expressions

/-! ## Statements without inner statements -/

section Statements

/-- The target of a jump is one of the part, or missing in both parses. -/
theorem jumpTarget_follows : seam.Follows false (·.relocate seam.place) jumpTarget jumpTarget := by
  intro cursor joined hinside
  -- what follows the part is no asterisk, so both parses see one or neither does
  have hasterisk : (seam.image cursor.peek).kind = .sym .asterisk ↔
      cursor.peek.kind = .sym .asterisk :=
    seam.image_kind_eq_iff (by decide) _
  rw [jumpTarget_apply, jumpTarget_apply, hinside.peek]
  simp only [hasterisk]
  split
  next hstar =>
    have hpeek : cursor.peek.kind ≠ .eof := by
      rw [hstar]
      decide
    rw [seam.image_of_ne_eof hpeek]
    exact (Follows.expect (by decide) (hinside.advance hpeek)).bind
      fun _ hlast => .ok rfl hlast
  next => exact (Follows.expect (by decide) hinside).bind fun _ hlast => .ok rfl hlast

/-- A line number takes in the colon that follows, if the seam is one. -/
theorem lineNumber_follows : seam.Follows true (·.relocate seam.place) lineNumber lineNumber :=
  .bind .current fun _ => .ifNext (by decide)
    (fun _ => .separate rfl) (.pure rfl)

theorem label_follows : seam.Follows true (·.relocate seam.place) label label :=
  .bind .current fun _ => .bind (.expect (by decide)) fun _ =>
    .separate rfl

theorem arraySize_follows : seam.Follows false (·.relocate seam.place) arraySize arraySize :=
  .bind (.expect (by decide)) fun _ => integer_follows

/-- Both parses declare the same arrays, at places that correspond. -/
theorem arrayDecl_follows : seam.Follows false (·.relocate seam.place) arrayDecl arrayDecl := by
  refine .bind (.expect (by decide)) fun name =>
    .bind (.expect (by decide)) fun _ =>
    .bind (.commaList arraySize_follows (arraySize_keeps growth_leads.toDrift)) fun sizes =>
    .bind (.expect (by decide)) fun _ => ?_
  intro cursor joined hinside
  rw [List.length_map]
  exact .ok rfl (hinside.declare _ _ _ _)

/-- The list of a `DIM` ends at the same token in both parses. -/
theorem dim_follows : seam.Follows true (·.relocate seam.place) dim dim :=
  .bind .current fun _ =>
    .bind (.commaList arrayDecl_follows (arrayDecl_keeps growth_leads)) fun _ =>
    .separate rfl

theorem goto_follows : seam.Follows true (·.relocate seam.place) goto goto :=
  .bind .current fun _ => .bind jumpTarget_follows fun _ =>
    .separate rfl

theorem gosub_follows : seam.Follows true (·.relocate seam.place) gosub gosub :=
  .bind .current fun _ => .bind jumpTarget_follows fun _ =>
    .separate rfl

/-- Where the part ends behind a `RETURN`, what follows is no target either. -/
theorem ret_follows : seam.Follows true (·.relocate seam.place) ret ret :=
  .bind .current fun _ => .separate rfl

/-- Behind the selector of an `ON`, both parses see the same keyword or neither sees one. -/
theorem jumpKind_follows : seam.Follows false id jumpKind jumpKind := by
  intro cursor joined hinside
  rw [jumpKind_apply, jumpKind_apply, hinside.peek]
  rcases seam.image_kind cursor.peek with hsame | ⟨heof, hnext⟩
  · rw [hsame]
    split
    next hnext => exact .ok rfl (hinside.advance (by rw [hnext]; decide))
    next hnext => exact .ok rfl (hinside.advance (by rw [hnext]; decide))
    next => exact .error (by rw [revise_noJump, hsame]) hinside
  · -- neither the end nor what may follow is a jump, and the diagnostic names what it sees
    have hrevise : _ = seam.revise _ := (revise_noJump cursor.peek).symm
    rw [heof] at hrevise ⊢
    rcases hnext with hnext | hnext <;> rw [hnext] at hrevise ⊢ <;> exact .error hrevise hinside

variable {expr : Nat → Parse Expr}

/-- An `ON` of the part selects among the same targets in the joined parse. -/
theorem on_follows (h : Carried seam expr) :
    seam.Follows true (·.relocate seam.place) (on expr) (on expr) :=
  .bind .current fun _ => .bind (nextExpression_follows h _) fun _ =>
    .bind jumpKind_follows fun _ =>
    .bind (.commaList jumpTarget_follows (jumpTarget_keeps growth_leads.toDrift)) fun _ =>
    .separate rfl

/-- The value of an assignment ends at the same token in both parses. -/
theorem assignTo_follows (h : Carried seam expr) (target : Token) (indices : List Expr) :
    seam.Follows true (·.relocate seam.place) (assignTo expr target indices)
      (assignTo expr (target.relocate seam.place) (indices.map (·.relocate seam.place))) := by
  refine .bind (.expect (by decide)) fun _ =>
    .bind (nextExpression_follows h _) fun _ => .separate ?_
  simp [Statement.relocate]

/-- An assignment to an array element follows the seam, subscripts first. -/
theorem assignElement_follows (h : Carried seam expr) :
    seam.Follows true (·.relocate seam.place) (assignElement expr) (assignElement expr) :=
  .bind .current fun target => .bind (.expect (by decide)) fun _ =>
    .bind (subscripts_follows h) (assignTo_follows h target)

/-- A call statement takes the same arguments in both parses, in parentheses or bare. -/
theorem call_follows (h : Carried seam expr) :
    seam.Follows true (·.relocate seam.place) (call expr) (call expr) := by
  refine .bind .current fun function => .peek fun cursor joined hinside => ?_
  have hparen : (seam.image cursor.peek).kind = .sym .lparen ↔ cursor.peek.kind = .sym .lparen :=
    seam.image_kind_eq_iff (by decide) _
  -- the end of the statement is the same for all three ways to give arguments
  have hend (arguments : List Expr) :
      seam.Follows true (·.relocate seam.place)
        (skipSeparator >>= fun _ => pure (Statement.call function.literal arguments function.loc))
        (skipSeparator >>= fun _ => pure (Statement.call function.literal
          (arguments.map (·.relocate seam.place)) (seam.place function.loc))) :=
    .separate (by simp [Statement.relocate])
  have hterminator := seam.image_kind_congr Token.Kind.isTerminator rfl rfl cursor.peek
  simp only [hterminator, hparen]
  split
  · exact hend [] hinside
  · split
    next hnext =>
      exact .advance hinside (by rw [hnext]; decide) (.bind (arguments_follows h) hend)
    next => exact (expressionList_follows h hinside).bind fun _ hlast => hend _ hlast

/-- Whether a name is assigned to, indexed or called is settled within the part. -/
theorem namedStatement_follows (h : Carried seam expr) :
    seam.Follows true (·.relocate seam.place) (namedStatement expr) (namedStatement expr) := by
  refine .bind .current fun token => .peek fun cursor joined hinside => ?_
  have hequals : (seam.image cursor.peek).kind = .sym .eq ↔ cursor.peek.kind = .sym .eq :=
    seam.image_kind_eq_iff (by decide) _
  simp only [hequals]
  split
  · exact assignTo_follows h token [] hinside
  · exact .ifArray hinside (assignElement_follows h hinside) (call_follows h hinside)

end Statements

/-! ## Statements with inner statements -/

section Blocks

variable {inner : Cursor → Option Statement × Cursor}

/-- The step over the inner statements follows the seam, up to faults, and goes on only. -/
structure StepCarried (seam : Seam) (inner : Cursor → Option Statement × Cursor) : Prop where
  follows : seam.StepFollows inner
  leads : ∀ cursor, Leads cursor (inner cursor).2

/-- A block comes to the same end in the joined parse, unless the part is faulty or ends before
the block does. -/
theorem blockWithin_follows (h : StepCarried seam inner) (hat : seam.AtLine)
    {ends : Token.Kind → Bool} (hends : ends .eof = true) {limit limit' : Nat}
    (hinside : seam.Inside cursor joined) (hlimit : cursor.tokens.length ≤ limit)
    (hle : limit ≤ limit') :
    (seam.strict = false ∧ ¬(blockWithin inner ends limit cursor).2.Clean) ∨
      (seam.tail ≠ [] ∧ ends .lineNo = false ∧
        (blockWithin inner ends limit cursor).2.peek.kind = .eof) ∨
      ((blockWithin inner ends limit' joined).1 =
          (blockWithin inner ends limit cursor).1.map (·.relocate seam.place) ∧
        seam.Inside (blockWithin inner ends limit cursor).2
          (blockWithin inner ends limit' joined).2) := by
  -- the induction is on the bound of the part alone; both bounds exceed the tokens left
  have hlength := hinside.length_advance
  induction limit generalizing cursor joined limit' with
  | zero => omega
  | succ limit ih =>
    obtain ⟨limit', rfl⟩ := Nat.exists_eq_add_one_of_ne_zero (by omega : limit' ≠ 0)
    simp only [blockWithin, hinside.peek]
    by_cases hend : ends cursor.peek.kind = true
    · simp only [hend, if_true]
      by_cases hend' : ends (seam.image cursor.peek).kind = true
      · simp only [hend', if_true]
        exact .inr (.inr ⟨rfl, hinside⟩)
      · -- only the end and the line number after the part can make the difference
        rcases hat.image_kind cursor.peek with hsame | ⟨heof, hline⟩
        · exact absurd (hsame ▸ hend) hend'
        · refine .inr (.inl ⟨fun htail => ?_, by simpa [hline] using hend', heof⟩)
          rw [image_of_tail_nil htail, Token.kind_relocate, heof] at hline
          cases hline
    · -- a further statement: its first token is one of the part
      have hpeek : cursor.peek.kind ≠ .eof := fun heof => hend (heof ▸ hends)
      have hsame : (seam.image cursor.peek).kind = cursor.peek.kind := by
        rw [seam.image_of_ne_eof hpeek, Token.kind_relocate]
      simp only [hsame, hend, if_false, Bool.false_eq_true]
      have hadvance := hinside.advance hpeek
      have hle' := (h.leads cursor.advance).tokens.length_le
      rcases h.follows hadvance with ⟨hstrict, hclean⟩ | ⟨hhead, hnext⟩
      · -- what is wrong with a statement stays in the journal of the block
        refine .inl ⟨hstrict, fun hlast => hclean ?_⟩
        exact ((blockWithin_rounds limit _).keeps growth_leads.toDrift h.leads).clean hlast
      · have hnext := hnext.inside hat
        rcases ih hnext (by omega) (Nat.le_of_succ_le_succ hle) hnext.length_advance with
          hfault | hover | ⟨htail, hlast⟩
        · exact .inl hfault
        · exact .inr (.inl hover)
        · refine .inr (.inr ⟨?_, hlast⟩)
          rw [hhead, htail, List.map_append]
          cases (inner cursor.advance).1 <;> rfl

/-- A block that a line number ends follows the seam up to faults. -/
theorem block_follows (h : StepCarried seam inner) (hat : seam.AtLine) {ends : Token.Kind → Bool}
    (hends : ends .eof = true) (hline : ends .lineNo = true) :
    seam.FollowsOrFaults false (List.map (·.relocate seam.place)) (block inner ends)
      (block inner ends) := by
  intro cursor joined hinside
  rcases blockWithin_follows h hat hends hinside (Nat.le_refl _) hinside.length_le with
    hfault | ⟨_, hline', _⟩ | ⟨hvalue, hlast⟩
  · exact .inl hfault
  · rw [hline] at hline'
    cases hline'
  · exact .inr (.ok hvalue hlast)

/-- An arm of an `IF` ends where the line does, so it never reads on behind the part. -/
theorem branch_follows (h : StepCarried seam inner) (hat : seam.AtLine) {ends : Token.Kind → Bool}
    (hends : ends .eof = true) (hline : ends .lineNo = true) :
    seam.FollowsOrFaults false (·.relocate seam.place) (branch inner ends) (branch inner ends) := by
  refine .andThen .current fun token => ?_
  intro cursor joined hinside
  have hlabel : (joined.peek.kind = .num ∨ joined.peek.kind = .sym .asterisk) ↔
      (cursor.peek.kind = .num ∨ cursor.peek.kind = .sym .asterisk) := by
    rw [hinside.peek]
    exact iff_of_eq (seam.image_kind_congr
      (fun kind => kind = .num ∨ kind = .sym .asterisk) (by decide) (by decide) _)
  rw [bind_apply, bind_apply, peek_apply, peek_apply]
  simp only [hlabel]
  split
  · -- a label comes first, and statements may follow it
    refine FollowsOrFaults.andThen jumpTarget_follows (fun target => ?_) hinside
    refine .andThen hat.skipSeparator fun _ => ?_
    refine (block_follows h hat hends hline).bind (fun statements => ?_) fun statements => ?_
    · cases statements <;> exact .pure growth_leads.toDrift _
    · cases statements with
      | nil => exact (Follows.pure rfl).orFaults
      | cons head tail =>
        refine (Follows.pure ?_).orFaults
        simp [Branch.relocate, Statement.relocate]
  · refine (block_follows h hat hends hline).bind (fun _ => .pure growth_leads.toDrift _)
      (fun statements => ?_) hinside
    refine (Follows.pure ?_).orFaults
    simp [Branch.relocate]

variable {expr : Nat → Parse Expr}

/-- An `IF` follows the seam where a line starts behind the part, unless an arm is faulty. -/
theorem cond_follows (h : Carried seam expr) (hinner : StepCarried seam inner)
    (hat : seam.AtLine) :
    seam.FollowsOrFaults true (·.relocate seam.place) (cond expr inner) (cond expr inner) := by
  have hdrift := growth_leads.toDrift
  refine .andThen .current fun token =>
    .andThen (nextExpression_follows h _) fun condition =>
    .andThen (.expect (by decide)) fun _ => ?_
  refine (branch_follows hinner hat rfl rfl).bind (fun consequence => ?_) fun consequence => ?_
  · refine .bind hdrift (.peek hdrift) fun next => ?_
    split
    · exact .bind hdrift (.advance hdrift) fun _ =>
        .bind hdrift (branch_keeps hdrift hinner.leads _) fun _ => .pure hdrift _
    · exact .pure hdrift _
  · -- `ELSE` is no end of a listing: with the same arm read, both see it or neither does
    intro cursor joined hinside
    have helse : joined.peek.kind = .word .else_ ↔ cursor.peek.kind = .word .else_ := by
      rw [hinside.peek]
      exact seam.image_kind_eq_iff (by decide) _
    rw [bind_apply, bind_apply, peek_apply, peek_apply]
    simp only [helse]
    split
    next hnext =>
      have hadvance := hinside.advance (by rw [hnext]; decide)
      refine (branch_follows hinner hat rfl rfl).bind (fun _ => .pure hdrift _)
        (fun alternative => ?_) hadvance
      refine (Follows.pure ?_).orFaults
      simp [Statement.relocate]
    next =>
      exact .inr (.ok (by simp [Statement.relocate]) hinside)

/-- A `STEP` is left out in both parses or in neither. -/
theorem loopStep_follows (h : Carried seam expr) (loc : Location) :
    seam.Follows false (·.relocate seam.place) (loopStep expr loc)
      (loopStep expr (seam.place loc)) :=
  .ifNext (by decide) (fun _ => nextExpression_follows h _) (.pure rfl)

/-- The line number after the part ends the head of a loop, where the end of the part does
not. -/
theorem loopHeadEnd_follows (hat : seam.AtLine) (hloop : seam.strict = true → seam.tail = []) :
    seam.FollowsOrFaults false id loopHeadEnd loopHeadEnd := by
  intro cursor joined hinside
  rw [loopHeadEnd, bind_apply, bind_apply, peek_apply, peek_apply]
  dsimp only
  rcases hat.image_kind cursor.peek with hsame | ⟨heof, hline⟩
  · rw [← hinside.peek] at hsame
    simp only [hsame]
    split
    · exact .inr (.ok rfl hinside)
    · rw [hinside.peek] at hsame
      have hcolon := iff_of_eq (congrArg (· = Token.Kind.sym .colon) hsame)
      exact .inr ((Agree.expect hinside (by decide) hcolon).bind fun _ hlast => .ok rfl hlast)
  · -- the part alone lacks the colon, while the joined parse goes on with the next line
    refine .inl ?_
    have hstrict : seam.strict = false := by
      rw [← Bool.not_eq_true]
      intro hstrict
      rw [image_of_tail_nil (hloop hstrict), Token.kind_relocate, heof] at hline
      cases hline
    simp only [heof, reduceCtorEq, if_false]
    rw [bind_apply, expect_apply, heof]
    exact hstrict

/-- The counter behind a `NEXT` is compared with that of the loop in both parses. -/
theorem loopEnd_follows (hat : seam.AtLine) (counter : String) :
    seam.Follows false id (loopEnd counter) (loopEnd counter) := by
  refine .bind (.expect (by decide)) fun _ =>
    .ifNext (by decide) (fun name => ?_) hat.skipSeparator
  rw [Token.literal_relocate]
  split
  · intro cursor joined hinside
    exact hat.skipSeparator (hinside.note rfl)
  · exact hat.skipSeparator

/-- The block runs with as many rounds as there are tokens left. -/
theorem block_bind_apply {β : Type} (ends : Token.Kind → Bool) (k : List Statement → Parse β)
    (cursor : Cursor) :
    (block inner ends >>= k) cursor =
      k (blockWithin inner ends cursor.tokens.length cursor).1
        (blockWithin inner ends cursor.tokens.length cursor).2 := rfl

/-- The body of a loop and its end. Where the part ends within the body, its `NEXT` is missing. -/
theorem loopBody_follows (h : StepCarried seam inner) (hat : seam.AtLine)
    (hloop : seam.strict = true → seam.tail = []) {counter : String}
    {f g : List Statement → Statement}
    (hcomm : ∀ body, g (body.map (·.relocate seam.place)) = (f body).relocate seam.place) :
    seam.FollowsOrFaults true (·.relocate seam.place)
      (block inner endsBody >>= fun body => loopEnd counter >>= fun _ => pure (f body))
      (block inner endsBody >>= fun body => loopEnd counter >>= fun _ => pure (g body)) := by
  intro cursor joined hinside
  have hends : endsBody .eof = true := rfl
  have hkeeps (body : List Statement) :
      (loopEnd counter >>= fun _ => pure (f body) : Parse Statement).Keeps Leads :=
    .bind growth_leads.toDrift (loopEnd_keeps growth_leads _) fun _ => .pure growth_leads.toDrift _
  rw [block_bind_apply, block_bind_apply]
  rcases blockWithin_follows h hat hends hinside (Nat.le_refl _) hinside.length_le with
    ⟨hstrict, hclean⟩ | ⟨htail, -, heof⟩ | ⟨hvalue, hlast⟩
  · exact .inl (faulty_of_not_clean hstrict (hkeeps _) hclean)
  · -- the part ends within the body, so alone it lacks its `NEXT`
    have hstrict : seam.strict = false := by
      rw [← Bool.not_eq_true]
      exact mt hloop htail
    refine .inl (Faulty.bind (fun _ => .pure growth_leads.toDrift _) ?_)
    rw [loopEnd, bind_apply, expect_apply, heof]
    exact hstrict
  · rw [hvalue]
    exact .inr ((loopEnd_follows hat counter hlast).bind fun _ hend => .ok (hcomm _) hend)

/-- A loop that the part leaves open is a fault of the part, so a clean part closes its loops. -/
theorem loop_follows (h : Carried seam expr) (hinner : StepCarried seam inner)
    (hat : seam.AtLine) (hloop : seam.strict = true → seam.tail = []) :
    seam.FollowsOrFaults true (·.relocate seam.place) (loop expr inner) (loop expr inner) := by
  have hdrift := growth_leads.toDrift
  refine .andThen .current fun token =>
    .andThen (.expect (by decide)) fun counter =>
    .andThen (.expect (by decide)) fun _ =>
    .andThen (nextExpression_follows h _) fun first =>
    .andThen (.expect (by decide)) fun _ =>
    .andThen (nextExpression_follows h _) fun last =>
    .andThen (loopStep_follows h token.loc) fun step => ?_
  -- a head that ends where the part does is a fault of the part, and none in the joined parse
  refine (loopHeadEnd_follows hat hloop).bind (fun _ => ?_) fun _ => ?_
  · exact .bind hdrift (block_keeps hdrift hinner.leads _) fun _ =>
      .bind hdrift (loopEnd_keeps growth_leads _) fun _ => .pure hdrift _
  · refine loopBody_follows hinner hat hloop fun body => ?_
    simp [Statement.relocate]

/-- Each rule for statements follows the seam, or the part is faulty. -/
theorem statementRule_follows (h : Carried seam expr) (hinner : StepCarried seam inner) :
    seam.FollowsOrFaults true (Option.map (·.relocate seam.place)) (statementRule expr inner)
      (statementRule expr inner) := by
  intro cursor joined hinside
  have hcomm (statement : Statement) : some (statement.relocate seam.place) =
      (some statement).map (·.relocate seam.place) := rfl
  have hmap {x : Parse Statement} (hx : seam.FollowsOrFaults true (·.relocate seam.place) x x) :
      seam.Faulty ((some <$> x) cursor) ∨
        seam.Agree true (Option.map (·.relocate seam.place)) ((some <$> x) cursor)
          ((some <$> x) joined) :=
    hx.map hcomm hinside
  -- where a statement starts that holds others, no colon comes after the part
  have hat (hkind : cursor.current.kind = .word .if_ ∨ cursor.current.kind = .word .for_) :
      seam.AtLine := by
    refine hinside.flat.resolve_right fun hflat => ?_
    obtain ⟨hif, hfor⟩ := hflat cursor.current hinside.current_mem
    exact hkind.elim hif hfor
  rw [statementRule_apply, statementRule_apply, hinside.current]
  simp only [Token.kind_relocate, Token.literal_relocate, Token.loc_relocate]
  split
  · exact .inr (.of_ended rfl hinside.skipSeparator)
  · exact .inr (.ok rfl hinside)
  · exact hmap lineNumber_follows.orFaults
  · exact hmap label_follows.orFaults
  · exact hmap dim_follows.orFaults
  next hif => exact hmap (cond_follows h hinner (hat (.inl hif)))
  · exact hmap (on_follows h).orFaults
  · exact hmap goto_follows.orFaults
  · exact hmap gosub_follows.orFaults
  · exact hmap ret_follows.orFaults
  next hfor =>
    -- a loop starts here, so a strict seam has nothing after the part
    refine hmap (loop_follows h hinner (hat (.inr hfor)) fun hstrict => ?_)
    exact (hinside.loops hstrict).resolve_right
      fun hloops => hloops cursor.current hinside.current_mem hfor
  · exact hmap (namedStatement_follows h).orFaults
  · exact .inr (.error rfl hinside)
  · exact .inr (.error rfl hinside)
  · exact .inr (.error rfl hinside)

/-- A rule that fails is given up in both parses. -/
theorem recover_follows {rule : Parse (Option Statement)}
    (h : seam.FollowsOrFaults true (Option.map (·.relocate seam.place)) rule rule) :
    seam.StepFollows (recover rule) := by
  intro cursor joined hinside
  unfold recover
  rcases h hinside with hfaulty | hagree
  · -- a fault of the rule ends up in the journal, whether it failed or not
    refine .inl ?_
    cases hrule : rule cursor with
    | ok found last =>
      rw [hrule] at hfaulty
      refine ⟨hfaulty.1, fun hclean => hfaulty.2 ?_⟩
      cases found with
      | none => exact hclean
      | some statement => exact (growth_leads.note last _).clean hclean
    | error diagnostic last =>
      rw [hrule] at hfaulty
      exact ⟨hfaulty, not_clean_recovered _ _⟩
  · refine .inr ?_
    generalize rule cursor = outcome at hagree
    generalize rule joined = outcome' at hagree
    cases hagree with
    | @ok last last' found _ hvalue hlast =>
      subst hvalue
      cases found with
      | none => exact ⟨rfl, .inl hlast⟩
      | some statement => exact ⟨rfl, .inl (hlast.note rfl)⟩
    | @past last last' found _ _ hvalue hlast =>
      subst hvalue
      cases found with
      | none => exact ⟨rfl, .inr hlast⟩
      | some statement => exact ⟨rfl, Ended.note (.inr hlast) rfl⟩
    | error hdiagnostic hlast =>
      -- both parses recover, and recovery takes in no more than the colon after the part
      subst hdiagnostic
      exact ⟨rfl, (hlast.note rfl).synchronize⟩

/-- A run of the statement parser comes to the same outcome in the joined parse, up to faults. -/
theorem statement_carried (seam : Seam) (levels : Nat) :
    StepCarried seam (statement levels) := by
  refine ⟨?_, statement_keeps growth_leads levels⟩
  induction levels with
  | zero => exact recover_follows tooDeep_follows.orFaults
  | succ levels ih =>
    exact recover_follows (statementRule_follows (expression_carried seam levels)
      ⟨ih, statement_keeps growth_leads levels⟩)

end Blocks

/-! ## Programs -/

/-- A colon on its own is no statement. -/
theorem steps_of_colon (h : cursor.current.kind = .sym .colon) :
    (steps cursor).1.filterMap (·.statement) =
        (steps cursor.advance).1.filterMap (·.statement) ∧
      (steps cursor).2 = (steps cursor.advance).2 := by
  have heof : cursor.current.kind ≠ .eof := by
    rw [h]
    decide
  have hstatement : statement maxNesting cursor = (none, cursor) := by
    rw [maxNesting, statement, recover, statementRule_apply, h]
  exact steps_of_statement heof hstatement

/-- At the end of a statement, the steps to come are those from a cursor that corresponds to the one
behind the statement. -/
theorem exists_steps_of_ended (h : seam.Ended cursor joined) :
    ∃ next, seam.Tracks cursor.advance next ∧
      (steps joined.advance).1.filterMap (·.statement) = (steps next).1.filterMap (·.statement) ∧
      (steps joined.advance).2 = (steps next).2 := by
  rcases h with hinside | hpast
  · exact ⟨joined.advance, hinside.step, rfl, rfl⟩
  · -- the colon after the part has been taken in, where it would be a step of its own
    obtain ⟨hstatements, hlast⟩ := steps_of_colon hpast.colon
    exact ⟨joined, hpast.behind, hstatements.symm, hlast.symm⟩

/-- The joined parse gives the statements of the part and stands behind it then, unless the
part is faulty. -/
theorem steps_follows (h : seam.Tracks cursor joined) :
    (seam.strict = false ∧ ¬(steps cursor).2.Clean) ∨
      ∃ behind, seam.Tracks (steps cursor).2 behind ∧ (steps cursor).2.tokens = [] ∧
        (steps joined).2 = (steps behind).2 ∧
        (steps joined).1.filterMap (·.statement) =
          ((steps cursor).1.filterMap (·.statement)).map (·.relocate seam.place) ++
            (steps behind).1.filterMap (·.statement) := by
  -- a step takes in any number of tokens, hence the strong induction on what is left
  generalize hlength : cursor.tokens.length = length
  induction length using Nat.strongRecOn generalizing cursor joined with
  | ind length ih =>
    by_cases hnil : cursor.tokens = []
    · have heof : cursor.current.kind = .eof := by
        rw [Cursor.current, hnil]
        rfl
      rw [steps_of_eof heof]
      exact .inr ⟨joined, h, hnil, rfl, rfl⟩
    -- a token of the part is left, and both parses make a step over it
    have hinside : seam.Inside cursor joined := ⟨h, hnil⟩
    have hcurrent := hinside.current_kind
    have hcurrent' : joined.current.kind ≠ .eof := by
      rw [hinside.current]
      exact hcurrent
    have hless := length_statement_advance_lt maxNesting hcurrent
    rw [steps_of_ne_eof hcurrent, steps_of_ne_eof hcurrent']
    rcases (statement_carried seam maxNesting).follows hinside with
      ⟨hstrict, hclean⟩ | ⟨hfound, hended⟩
    · refine .inl ⟨hstrict, fun hlast => hclean ?_⟩
      exact (growth_leads.advance _).clean (((steps_stepsTo _).keeps growth_leads).clean hlast)
    · obtain ⟨next, hnext, hsteps, hlast'⟩ := exists_steps_of_ended hended
      rcases ih _ (hlength ▸ hless) hnext rfl with
        hfault | ⟨behind, htracks, hempty, hlast, hstatements⟩
      · exact .inl hfault
      · refine .inr ⟨behind, htracks, hempty, hlast'.trans hlast, ?_⟩
        simp only [List.filterMap_cons, hfound, hsteps, hstatements]
        cases (statement maxNesting cursor).1 <;> rfl

end LineBasic.Grammar
