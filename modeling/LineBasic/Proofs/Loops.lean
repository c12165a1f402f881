import LineBasic.Proofs.Grammar.Soundness

/-!
# Loops match like brackets

In a listing without a diagnostic `FOR` and `NEXT` match like brackets: they are balanced, each
`FOR` is that of one loop of the program, and the statements of the body of a loop, at any depth,
are those between its `FOR` and the `NEXT` that closes it (`loops_match_of_isClean`).

`Bracketed` says how tokens hold statements when all that counts of a token is whether it opens or
closes a loop. A reading without a diagnostic is bracketed, and the rest is about bracketed tokens.
-/

namespace LineBasic

/-! ## Statements at any depth -/

mutual

/-- The statements of an arm, at any depth. -/
def Branch.nodes : Branch → List Statement
  | .goto _ => []
  | .block statements => Statement.listNodes statements

/-- The statements of an arm that may be missing, at any depth. -/
def Branch.elseNodes : Option Branch → List Statement
  | none => []
  | some branch => branch.nodes

/-- A statement and those in it at any depth, in the order of the listing. -/
def Statement.nodes : Statement → List Statement
  | .cond condition consequence alternative loc =>
    .cond condition consequence alternative loc ::
      (consequence.nodes ++ Branch.elseNodes alternative)
  | .loop counter first last step body loc =>
    .loop counter first last step body loc :: Statement.listNodes body
  | statement => [statement]

/-- Some statements and those in them at any depth, in the order of the listing. -/
def Statement.listNodes : List Statement → List Statement
  | [] => []
  | head :: tail => head.nodes ++ Statement.listNodes tail

end

/-- The nodes of two lists of statements stand one after the other. -/
theorem Statement.listNodes_append (left right : List Statement) :
    Statement.listNodes (left ++ right) =
      Statement.listNodes left ++ Statement.listNodes right := by
  induction left with
  | nil => rfl
  | cons head tail ih => rw [List.cons_append, listNodes, listNodes, ih, List.append_assoc]

theorem Statement.listNodes_singleton (statement : Statement) :
    Statement.listNodes [statement] = statement.nodes :=
  List.append_nil _

/-- Whether a statement is a loop. -/
def Statement.isLoop : Statement → Bool
  | .loop _ _ _ _ _ _ => true
  | _ => false

/-! ## Brackets -/

/-- Whether a kind opens or closes a loop. -/
def Token.Kind.isBracket : Token.Kind → Bool
  | .word .for_ => true
  | .word .next => true
  | _ => false

/-- The number of loops that are open behind the tokens, if `depth` loops are open before them.
There is none if a `NEXT` has no loop to close. -/
def openLoops? : (depth : Nat) → List Token → Option Nat
  | depth, [] => some depth
  | depth, t :: ts =>
    match t.kind, depth with
    | .word .for_, depth => openLoops? (depth + 1) ts
    | .word .next, 0 => none
    | .word .next, depth + 1 => openLoops? depth ts
    | _, depth => openLoops? depth ts

/-- The `NEXT` that closes a loop, from the tokens within it. Those start where `depth` loops in
it are open. -/
def closing? : (depth : Nat) → List Token → Option Token
  | _, [] => none
  | depth, t :: ts =>
    match t.kind, depth with
    | .word .for_, depth => closing? (depth + 1) ts
    | .word .next, 0 => some t
    | .word .next, depth + 1 => closing? depth ts
    | _, depth => closing? depth ts

/-- The first of the two tokens is a `FOR`, and the second one is the `NEXT` that closes it. -/
def Matching (ts : List Token) (opening closing : Token) : Prop :=
  opening.kind = .word .for_ ∧
    ∃ rest, opening :: rest <:+ ts ∧ closing? 0 rest = some closing

section Brackets

variable {t : Token} {ts : List Token}

attribute [local simp] openLoops? closing?

theorem Token.Kind.isBracket_eq_false_iff {kind : Token.Kind} :
    kind.isBracket = false ↔ kind ≠ .word .for_ ∧ kind ≠ .word .next := by
  cases kind with
  | word keyword => cases keyword <;> decide
  | _ => simp [isBracket]

theorem openLoops?_for (ht : t.kind = .word .for_) (depth : Nat) :
    openLoops? depth (t :: ts) = openLoops? (depth + 1) ts := by
  simp [ht]

theorem openLoops?_next (ht : t.kind = .word .next) (depth : Nat) :
    openLoops? (depth + 1) (t :: ts) = openLoops? depth ts := by
  simp [ht]

theorem openLoops?_other (ht : t.kind.isBracket = false) (depth : Nat) :
    openLoops? depth (t :: ts) = openLoops? depth ts := by
  simp [Token.Kind.isBracket_eq_false_iff.1 ht]

/-- A loop inside is closed first. -/
theorem closing?_for (ht : t.kind = .word .for_) (depth : Nat) :
    closing? depth (t :: ts) = closing? (depth + 1) ts := by
  simp [ht]

/-- The `NEXT` that closes the loop is the first one with no inner loop left open. -/
theorem closing?_next_zero (ht : t.kind = .word .next) : closing? 0 (t :: ts) = some t := by
  simp [ht]

theorem closing?_next_succ (ht : t.kind = .word .next) (depth : Nat) :
    closing? (depth + 1) (t :: ts) = closing? depth ts := by
  simp [ht]

theorem closing?_other (ht : t.kind.isBracket = false) (depth : Nat) :
    closing? depth (t :: ts) = closing? depth ts := by
  simp [Token.Kind.isBracket_eq_false_iff.1 ht]

/-- The match of a `FOR` does not depend on what comes before it. -/
theorem Matching.of_suffix {ts all : List Token} {opening closing : Token}
    (h : Matching ts opening closing) (hsuffix : ts <:+ all) : Matching all opening closing := by
  obtain ⟨hkind, rest, hrest, hclosing⟩ := h
  exact ⟨hkind, rest, hrest.trans hsuffix, hclosing⟩

/-- A `FOR` with a match is one of the tokens. -/
theorem Matching.mem {opening closing : Token} (h : Matching ts opening closing) :
    opening ∈ ts := by
  obtain ⟨-, rest, hrest, -⟩ := h
  exact hrest.mem List.mem_cons_self

end Brackets

/-- Each of the statements stands at one of the tokens. -/
def StandAt (nodes : List Statement) (ts : List Token) : Prop :=
  ∀ s ∈ nodes, ∃ t ∈ ts, t.loc = s.loc

/-- What stands at tokens of a part stands at tokens of the whole. -/
theorem StandAt.mono {nodes : List Statement} {ts all : List Token} (h : StandAt nodes ts)
    (hsuffix : ts <:+ all) : StandAt nodes all := by
  intro s hs
  obtain ⟨t, ht, hloc⟩ := h s hs
  exact ⟨t, hsuffix.mem ht, hloc⟩

theorem StandAt.append {left right : List Statement} {ts : List Token} (h : StandAt left ts)
    (h' : StandAt right ts) : StandAt (left ++ right) ts :=
  List.forall_mem_append.2 ⟨h, h'⟩

/-! ## Bracketed tokens -/

/-- The tokens, up to the rest, hold the statements: a loop stands at a `FOR`, with its body up to
a `NEXT`, and any other statement at a token that is no bracket. -/
inductive Bracketed : List Token → List Statement → List Token → Prop
  /-- Nothing is read. -/
  | nil {ts : List Token} : Bracketed ts [] ts
  /-- A token at which no statement stands. -/
  | token {t : Token} {ts us : List Token} {nodes : List Statement}
      (ht : t.kind.isBracket = false) (h : Bracketed ts nodes us) : Bracketed (t :: ts) nodes us
  /-- A token at which a statement stands that is no loop. -/
  | node {t : Token} {ts us : List Token} {statement : Statement} {nodes : List Statement}
      (ht : t.kind.isBracket = false) (hloop : statement.isLoop = false)
      (hloc : statement.loc = t.loc) (h : Bracketed ts nodes us) :
      Bracketed (t :: ts) (statement :: nodes) us
  /-- A loop, and what stands behind its `NEXT`. -/
  | loop {f n : Token} {ts us vs : List Token} {counter : String} {first last step : Expr}
      {body : List Statement} {nodes : List Statement} (hf : f.kind = .word .for_)
      (hbody : Bracketed ts (Statement.listNodes body) (n :: us)) (hn : n.kind = .word .next)
      (h : Bracketed us nodes vs) :
      Bracketed (f :: ts)
        (.loop counter first last step body f.loc :: (Statement.listNodes body ++ nodes)) vs

namespace Bracketed

variable {ts us vs : List Token} {nodes others : List Statement}

/-- Two stretches with balanced loops have balanced loops together. -/
theorem trans (h : Bracketed ts nodes us) (h' : Bracketed us others vs) :
    Bracketed ts (nodes ++ others) vs := by
  induction h with
  | nil => exact h'
  | token ht _ ih => exact .token ht (ih h')
  | node ht hloop hloc _ ih => exact .node ht hloop hloc (ih h')
  | loop hf hbody hn _ _ ih =>
    rw [List.cons_append, List.append_assoc]
    exact .loop hf hbody hn (ih h')

/-- Tokens further on change nothing, since the stretch closes the loops it opens. -/
theorem append (h : Bracketed ts nodes us) (more : List Token) :
    Bracketed (ts ++ more) nodes (us ++ more) := by
  induction h with
  | nil => exact .nil
  | token ht _ ih => exact .token ht ih
  | node ht hloop hloc _ ih => exact .node ht hloop hloc ih
  | loop hf _ hn _ ih ih' => exact .loop hf ih hn ih'

/-- A token of a kind that is no bracket. -/
theorem skip {t : Token} {kind : Token.Kind} (ht : t.kind = kind) (hkind : kind.isBracket = false)
    (h : Bracketed ts nodes us) : Bracketed (t :: ts) nodes us :=
  .token (ht ▸ hkind) h

/-- Tokens in which no statement stands, before others. -/
theorem past (h : Bracketed ts [] us) (h' : Bracketed us nodes vs) : Bracketed ts nodes vs :=
  h.trans h'

/-- A colon is no bracket. -/
theorem afterSeparator (ts : List Token) : Bracketed ts [] (afterSeparator ts) := by
  unfold LineBasic.afterSeparator
  split
  next t ts =>
    split
    next ht => exact .skip ht rfl .nil
    next => exact .nil
  next => exact .nil

/-- What comes behind a stretch is the end of its tokens. -/
theorem suffix (h : Bracketed ts nodes us) : us <:+ ts := by
  induction h with
  | nil => exact List.suffix_rfl
  | token _ _ ih | node _ _ _ _ ih => exact ih.trans (List.suffix_cons _ _)
  | loop _ _ _ _ ih ih' =>
    exact ih'.trans ((List.suffix_cons _ _).trans (ih.trans (List.suffix_cons _ _)))

/-! ### The brackets of bracketed tokens -/

/-- Bracketed tokens leave as many loops open as there are. -/
theorem openLoops?_eq (h : Bracketed ts nodes us) (depth : Nat) :
    openLoops? depth ts = openLoops? depth us := by
  induction h generalizing depth with
  | nil => rfl
  | token ht _ ih | node ht _ _ _ ih => rw [openLoops?_other ht, ih]
  | loop hf _ hn _ ih ih' => rw [openLoops?_for hf, ih, openLoops?_next hn, ih']

/-- Bracketed tokens close no loop around them. -/
theorem closing?_eq (h : Bracketed ts nodes us) (depth : Nat) :
    closing? depth ts = closing? depth us := by
  induction h generalizing depth with
  | nil => rfl
  | token ht _ ih | node ht _ _ _ ih => rw [closing?_other ht, ih]
  | loop hf _ hn _ ih ih' => rw [closing?_for hf, ih, closing?_next_succ hn, ih']

/-- The loops stand where the tokens `FOR` do. -/
theorem locs_eq (h : Bracketed ts nodes us) :
    (ts.filter (·.kind = .word .for_)).map (·.loc) =
      (nodes.filter Statement.isLoop).map Statement.loc ++
        (us.filter (·.kind = .word .for_)).map (·.loc) := by
  have hother {t : Token} (ht : t.kind.isBracket = false) : ¬t.kind = .word .for_ :=
    (Token.Kind.isBracket_eq_false_iff.1 ht).1
  induction h with
  | nil => rfl
  | token ht _ ih => simp [hother ht, ih]
  | node ht hloop _ _ ih => simp [hother ht, hloop, ih]
  | loop hf _ hn _ ih ih' =>
    -- the `FOR`, those in the body and those behind the loop, with a `NEXT` between that is none
    rw [List.filter_cons_of_pos (by simpa using hf), List.map_cons, ih,
      List.filter_cons_of_neg (by simp [hn]), ih', List.filter_cons_of_pos rfl, List.map_cons,
      List.filter_append, List.map_append, List.cons_append, List.append_assoc]
    rfl

/-! ### Where the statements stand -/

/-- The loops read from a stretch stand at tokens of it. -/
theorem standAt (h : Bracketed ts nodes us) : StandAt nodes ts := by
  induction h with
  | nil => exact List.forall_mem_nil _
  | token _ _ ih => exact ih.mono (List.suffix_cons _ _)
  | node _ _ hloc _ ih =>
    exact List.forall_mem_cons.2 ⟨⟨_, List.mem_cons_self, hloc.symm⟩,
      ih.mono (List.suffix_cons _ _)⟩
  | loop _ hbody _ _ ih ih' =>
    have hbehind := (List.suffix_cons _ _).trans hbody.suffix
    exact List.forall_mem_cons.2 ⟨⟨_, List.mem_cons_self, rfl⟩,
      (ih.append (ih'.mono hbehind)).mono (List.suffix_cons _ _)⟩

/-- Each of the statements stands before the rest. -/
theorem loc_before (h : Bracketed ts nodes us)
    (hsorted : ts.Pairwise fun first second => first.loc.Before second.loc) :
    ∀ s ∈ nodes, ∀ u ∈ us, s.loc.Before u.loc := by
  induction h with
  | nil => exact List.forall_mem_nil _
  | token _ _ ih => exact ih hsorted.of_cons
  | node _ _ hloc hrest ih =>
    refine List.forall_mem_cons.2 ⟨fun u hu => ?_, ih hsorted.of_cons⟩
    rw [hloc]
    exact List.rel_of_pairwise_cons hsorted (hrest.suffix.mem hu)
  | loop _ hbody _ hrest ih ih' =>
    -- what is behind the loop is behind its `NEXT`, and so behind the `FOR` and the body
    have hbehind := (List.suffix_cons _ _).trans hbody.suffix
    refine List.forall_mem_cons.2 ⟨fun u hu => ?_,
      List.forall_mem_append.2 ⟨fun s hs u hu => ?_, ?_⟩⟩
    · exact List.rel_of_pairwise_cons hsorted (hbehind.mem (hrest.suffix.mem hu))
    · exact ih hsorted.of_cons s hs u (List.mem_cons_of_mem _ (hrest.suffix.mem hu))
    · exact ih' (hsorted.of_cons.sublist hbehind.sublist)

end Bracketed

/-! ## Bodies -/

/-- A loop in the tokens, up to the rest: of the statements, those of its body are the ones between
the two brackets. -/
structure Encloses (opening closing : Token) (body : List Statement) (ts : List Token)
    (nodes : List Statement) (us : List Token) : Prop where
  brackets : Matching ts opening closing
  early : ∀ u ∈ us, closing.loc.Before u.loc
  subset : Statement.listNodes body ⊆ nodes
  between : ∀ s ∈ nodes, s ∈ Statement.listNodes body ↔
    opening.loc.Before s.loc ∧ s.loc.Before closing.loc

namespace Encloses

variable {opening closing : Token} {body nodes others : List Statement} {ts us vs all : List Token}

/-- The statements before the tokens are not in the loop. -/
theorem after (h : Encloses opening closing body ts nodes us) (hall : ts <:+ all)
    (hnodes : StandAt nodes ts)
    (hothers : ∀ s ∈ others, ∀ t ∈ ts, s.loc.Before t.loc) :
    Encloses opening closing body all (others ++ nodes) us where
  brackets := h.brackets.of_suffix hall
  early := h.early
  subset := List.Subset.trans h.subset (List.subset_append_right _ _)
  between := by
    -- such a statement stands at none of the tokens, and before the `FOR` that is one of them
    refine List.forall_mem_append.2 ⟨fun s hs => iff_of_false (fun hbody => ?_) (fun hloc => ?_),
      h.between⟩
    · obtain ⟨t, ht, hloc⟩ := hnodes s (h.subset hbody)
      exact (hothers s hs t ht).ne hloc.symm
    · exact (hothers s hs opening h.brackets.mem).asymm hloc.1

/-- The statements in the rest are not in the loop. -/
theorem before (h : Encloses opening closing body ts nodes us) (hrest : vs <:+ us)
    (hnodes : ∀ s ∈ nodes, ∀ u ∈ us, s.loc.Before u.loc)
    (hothers : StandAt others us) :
    Encloses opening closing body ts (nodes ++ others) vs where
  brackets := h.brackets
  early := fun u hu => h.early u (hrest.mem hu)
  subset := List.Subset.trans h.subset (List.subset_append_left _ _)
  between := by
    refine List.forall_mem_append.2 ⟨h.between, fun s hs => ?_⟩
    obtain ⟨u, hu, hloc⟩ := hothers s hs
    refine iff_of_false (fun hbody => ?_) (fun hbetween => ?_)
    · exact (hnodes s (h.subset hbody) u hu).ne hloc.symm
    · exact (h.early u hu).asymm (hloc ▸ hbetween.2)

end Encloses

/-- A loop encloses its body, if what stands behind it is left out. -/
theorem Bracketed.encloses_self {f n : Token} {ts us : List Token} {counter : String}
    {first last step : Expr} {body : List Statement} (hf : f.kind = .word .for_)
    (hbody : Bracketed ts (Statement.listNodes body) (n :: us)) (hn : n.kind = .word .next)
    (hsorted : (f :: ts).Pairwise fun first second => first.loc.Before second.loc) :
    Encloses f n body (f :: ts)
      (.loop counter first last step body f.loc :: Statement.listNodes body) us where
  brackets := ⟨hf, ts, List.suffix_rfl, (hbody.closing?_eq 0).trans (closing?_next_zero hn)⟩
  early := fun _ hu =>
    List.rel_of_pairwise_cons (hsorted.of_cons.sublist hbody.suffix.sublist) hu
  subset := List.subset_cons_self _ _
  between := by
    have hinner (s : Statement) (hs : s ∈ Statement.listNodes body) : f.loc.Before s.loc := by
      obtain ⟨t, ht, hloc⟩ := hbody.standAt s hs
      exact hloc ▸ List.rel_of_pairwise_cons hsorted ht
    -- the loop stands at its `FOR`, so it is neither in its body nor between the brackets
    refine List.forall_mem_cons.2 ⟨iff_of_false ?_ ?_, fun s hs => iff_of_true hs ⟨hinner s hs, ?_⟩⟩
    · exact fun hself => Location.Before.irrefl _ (hinner _ hself)
    · exact fun hloc => Location.Before.irrefl _ hloc.1
    · exact hbody.loc_before hsorted.of_cons s hs n List.mem_cons_self

/-- Each loop of bracketed tokens encloses its body. -/
theorem Bracketed.encloses {ts us : List Token} {nodes : List Statement}
    (h : Bracketed ts nodes us)
    (hsorted : ts.Pairwise fun first second => first.loc.Before second.loc)
    {counter : String} {first last step : Expr} {body : List Statement} {loc : Location}
    (hloop : .loop counter first last step body loc ∈ nodes) :
    ∃ opening closing, opening.loc = loc ∧ Encloses opening closing body ts nodes us := by
  induction h with
  | nil => cases hloop
  | token _ hrest ih =>
    obtain ⟨opening, closing, hloc, hencloses⟩ := ih hsorted.of_cons hloop
    exact ⟨opening, closing, hloc,
      hencloses.after (List.suffix_cons _ _) hrest.standAt (List.forall_mem_nil _)⟩
  | @node t ts us statement nodes _ hother hstatement hrest ih =>
    rcases List.mem_cons.1 hloop with rfl | hloop
    · cases hother
    · obtain ⟨opening, closing, hloc, hencloses⟩ := ih hsorted.of_cons hloop
      have hfirst : ∀ s ∈ [statement], ∀ t ∈ ts, s.loc.Before t.loc := by
        refine List.forall_mem_singleton.2 fun t ht => ?_
        exact hstatement ▸ List.rel_of_pairwise_cons hsorted ht
      exact ⟨opening, closing, hloc,
        hencloses.after (List.suffix_cons _ _) hrest.standAt hfirst⟩
  | @loop f n ts us vs _ _ _ _ inner nodes hf hbody hn hrest ih ih' =>
    have hbehind : us <:+ ts := (List.suffix_cons _ _).trans hbody.suffix
    have hinner := hbody.loc_before hsorted.of_cons
    have hinner' : ∀ s ∈ Statement.listNodes inner, ∀ u ∈ us, s.loc.Before u.loc :=
      fun s hs u hu => hinner s hs u (List.mem_cons_of_mem _ hu)
    have hfirst (t : Token) (ht : t ∈ ts) : f.loc.Before t.loc :=
      List.rel_of_pairwise_cons hsorted ht
    -- the loop itself, a loop in its body, or a loop behind it
    rcases List.mem_cons.1 hloop with hself | hloop
    · cases hself
      refine ⟨f, n, rfl, (hbody.encloses_self hf hn hsorted).before hrest.suffix ?_
        hrest.standAt⟩
      exact List.forall_mem_cons.2 ⟨fun u hu => hfirst u (hbehind.mem hu), hinner'⟩
    · rcases List.mem_append.1 hloop with hloop | hloop
      · obtain ⟨opening, closing, hloc, hencloses⟩ := ih hsorted.of_cons hloop
        have hwithin := hencloses.before (hrest.suffix.trans (List.suffix_cons _ _)) hinner
          (hrest.standAt.mono (List.suffix_cons _ _))
        have hnodes := hbody.standAt.append (hrest.standAt.mono hbehind)
        refine ⟨opening, closing, hloc, ?_⟩
        change Encloses _ _ _ _ ([_] ++ _) _
        exact hwithin.after (List.suffix_cons _ _) hnodes (List.forall_mem_singleton.2 hfirst)
      · obtain ⟨opening, closing, hloc, hencloses⟩ :=
          ih' (hsorted.of_cons.sublist hbehind.sublist) hloop
        rw [← List.cons_append]
        refine ⟨opening, closing, hloc, hencloses.after (hbehind.trans (List.suffix_cons _ _))
          hrest.standAt ?_⟩
        exact List.forall_mem_cons.2 ⟨fun u hu => hfirst u (hbehind.mem hu), hinner'⟩

/-! ## Readings -/

section Readings

variable {ts us : List Token}

/-- A sign is neither `FOR` nor `NEXT`. -/
theorem UnaryOp.not_isBracket {kind : Token.Kind} {op : UnaryOp}
    (h : UnaryOp.ofKind? kind = some op) : kind.isBracket = false := by
  unfold UnaryOp.ofKind? at h
  split at h
  case h_5 => cases h
  all_goals rfl

/-- An operator is neither `FOR` nor `NEXT`. -/
theorem BinaryOp.not_isBracket {kind : Token.Kind} {op : BinaryOp}
    (h : BinaryOp.ofKind? kind = some op) : kind.isBracket = false := by
  unfold BinaryOp.ofKind? at h
  split at h
  case h_11 => cases h
  all_goals rfl

/-- No statement stands in an expression. -/
theorem ExprReading.bracketed {declared : String → Bool} {phrase : Phrase}
    (h : ExprReading declared ts phrase us) : Bracketed ts [] us := by
  induction h with
  | name ht => exact .skip ht rfl .nil
  | element ht _ hp _ hq ih => exact .skip ht rfl (.skip hp rfl (ih.past (.skip hq rfl .nil)))
  | bareCall ht _ _ ih | call ht _ _ ih => exact .skip ht rfl ih
  | groupedCall hp _ hq _ ih ih' => exact .skip hp rfl (ih.past (.skip hq rfl ih'))
  | int ht | str ht => exact .skip ht rfl .nil
  | grouped hp _ hq ih => exact .skip hp rfl (ih.past (.skip hq rfl .nil))
  | unary ht _ ih => exact .token (UnaryOp.not_isBracket ht) ih
  | binary _ ht _ ih ih' => exact ih.past (.token (BinaryOp.not_isBracket ht) ih')
  | one _ ih => exact ih
  | cons _ ht _ ih ih' => exact ih.past (.skip ht rfl ih')
  | noArguments hp hq => exact .skip hp rfl (.skip hq rfl .nil)
  | someArguments hp _ hq ih => exact .skip hp rfl (ih.past (.skip hq rfl .nil))

/-- A list without loops in its items is one without loops. -/
theorem CommaReading.bracketed {α : Type} {item : List Token → α → List Token → Prop}
    (hitem : ∀ ts value us, item ts value us → Bracketed ts [] us) {values : List α}
    (h : CommaReading item ts values us) : Bracketed ts [] us := by
  induction h with
  | one hvalue => exact hitem _ _ _ hvalue
  | cons hvalue ht _ ih => exact (hitem _ _ _ hvalue).past (.skip ht rfl ih)

/-- No loop stands in the target of a jump. -/
theorem TargetReading.bracketed {target : JumpTarget} (h : TargetReading ts target us) :
    Bracketed ts [] us := by
  cases h with
  | number ht => exact .skip ht rfl .nil
  | label ht hn => exact .skip ht rfl (.skip hn rfl .nil)

/-- No loop stands in the size of an array. -/
theorem SizeReading.bracketed {size : IntLit} (h : SizeReading ts size us) :
    Bracketed ts [] us := by
  cases h with
  | int ht => exact .skip ht rfl .nil

/-- No loop stands in the declaration of an array. -/
theorem DeclReading.bracketed {array : ArrayDecl} (h : DeclReading ts array us) :
    Bracketed ts [] us := by
  cases h with
  | array hn hp hsizes hq =>
    have hsizes := hsizes.bracketed fun _ _ _ => SizeReading.bracketed
    exact .skip hn rfl (.skip hp rfl (hsizes.past (.skip hq rfl .nil)))

/-- No loop stands in a `STEP`. -/
theorem StepReading.bracketed {declared : String → Bool} {loc : Location} {step : Expr}
    (h : StepReading declared loc ts step us) : Bracketed ts [] us := by
  cases h with
  | given ht hstep => exact .skip ht rfl hstep.bracketed
  | default => exact .nil

/-- No loop stands between the head of a loop and its body. -/
theorem HeadEndReading.bracketed (h : HeadEndReading ts us) : Bracketed ts [] us := by
  cases h with
  | colon ht => exact .skip ht rfl .nil
  | line => exact .nil

/-- No loop stands in the head of another one. -/
theorem HeadReading.bracketed {declared : String → Bool} {loc : Location} {counter : String}
    {first last step : Expr} (h : HeadReading declared loc ts counter first last step us) :
    Bracketed ts [] us := by
  cases h with
  | head hn he hfirst ho hlast hstep hend =>
    have hbounds := hfirst.bracketed.past (.skip ho rfl hlast.bracketed)
    exact .skip hn rfl (.skip he rfl (hbounds.past (hstep.bracketed.past hend.bracketed)))

/-- A loop ends with a `NEXT`, and no bracket belongs to what is behind it. -/
theorem LoopEndReading.exists_next (h : LoopEndReading ts us) :
    ∃ n rest, ts = n :: rest ∧ n.kind = .word .next ∧ Bracketed rest [] us := by
  cases h with
  | named ht hn => exact ⟨_, _, rfl, ht, .skip hn rfl (.afterSeparator _)⟩
  | bare ht => exact ⟨_, _, rfl, ht, .afterSeparator _⟩

/-- How tokens hold the statements of a clause. The label that an arm starts with is a jump that
stands at the word before the arm, so that word is among the tokens of the arm. -/
def Clause.Bracketed (ts us : List Token) : Clause → Prop
  | statement found => LineBasic.Bracketed ts (Statement.listNodes found.toList) us
  | block statements => LineBasic.Bracketed ts (Statement.listNodes statements) us
  | branch loc arm => ∀ t : Token, t.kind.isBracket = false → t.loc = loc →
    LineBasic.Bracketed (t :: ts) arm.nodes us

/-- A statement with nothing in it stands at its first token. -/
theorem Clause.Bracketed.of_first {t : Token} {kind : Token.Kind} {statement : Statement}
    (ht : t.kind = kind) (hkind : kind.isBracket = false) (hloc : statement.loc = t.loc)
    (hloop : statement.isLoop = false) (hnodes : statement.nodes = [statement])
    (h : LineBasic.Bracketed ts [] us) :
    (Clause.statement (some statement)).Bracketed (t :: ts) us := by
  subst ht
  rw [Clause.Bracketed, Option.toList_some, Statement.listNodes_singleton, hnodes]
  exact .node hkind hloop hloc h

/-- The tokens of a clause hold its statements. -/
theorem Reading.bracketed {before after : Declarations} {clause : Clause}
    (h : Reading before ts clause after us) : clause.Bracketed ts us := by
  have hsep := Bracketed.afterSeparator
  induction h with
  | remark ht => exact .skip ht rfl (hsep _)
  | empty ht => exact .skip ht rfl .nil
  | lineNumber ht => exact .of_first ht rfl rfl rfl rfl .nil
  | dataLine ht hd => exact .of_first ht rfl rfl rfl rfl (.skip hd rfl (hsep _))
  | label ht hn => exact .of_first ht rfl rfl rfl rfl (.skip hn rfl (hsep _))
  | dim ht hdeclared =>
    have hdeclared := hdeclared.bracketed fun _ _ _ => DeclReading.bracketed
    exact .of_first ht rfl rfl rfl rfl (hdeclared.past (hsep _))
  | cond ht hcondition hu _ ih =>
    have harm := ih _ (by rw [hu]; rfl) rfl
    rw [Clause.Bracketed, Option.toList_some, Statement.listNodes_singleton, Statement.nodes,
      Branch.elseNodes, List.append_nil]
    exact .node (by rw [ht]; rfl) rfl rfl (hcondition.bracketed.past harm)
  | condElse ht hcondition hu _ hv _ ih ih' =>
    have harm := ih _ (by rw [hu]; rfl) rfl
    have harm' := ih' _ (by rw [hv]; rfl) rfl
    rw [Clause.Bracketed, Option.toList_some, Statement.listNodes_singleton, Statement.nodes,
      Branch.elseNodes]
    exact .node (by rw [ht]; rfl) rfl rfl (hcondition.bracketed.past (harm.trans harm'))
  | @on _ _ j _ us _ _ kind _ ht hvalue hj htargets =>
    have hkind : j.kind.isBracket = false := by
      rw [hj]
      cases kind <;> rfl
    have htargets := htargets.bracketed fun _ _ _ => TargetReading.bracketed
    have hrest := hvalue.bracketed.past (.token hkind (htargets.past (hsep _)))
    exact .of_first ht rfl rfl rfl rfl hrest
  | goto ht htarget | gosub ht htarget =>
    exact .of_first ht rfl rfl rfl rfl (htarget.bracketed.past (hsep _))
  | ret ht => exact .of_first ht rfl rfl rfl rfl (hsep _)
  | loop ht hhead _ hend ih =>
    -- the head holds no statement, so what stands from the `FOR` to the `NEXT` is the body
    obtain ⟨n, rest, rfl, hn, hrest⟩ := hend.exists_next
    exact Bracketed.loop ht (hhead.bracketed.past ih) hn hrest
  | assign ht he hvalue =>
    exact .of_first ht rfl rfl rfl rfl (.skip he rfl (hvalue.bracketed.past (hsep _)))
  | assignElement ht _ hp hindices hq he hvalue =>
    have hvalue := Bracketed.skip he rfl (hvalue.bracketed.past (hsep _))
    have hrest := hindices.bracketed.past (.skip hq rfl hvalue)
    exact .of_first ht rfl rfl rfl rfl (.skip hp rfl hrest)
  | plainCall ht => exact .of_first ht rfl rfl rfl rfl (hsep _)
  | call ht _ hargs | bareCall ht _ hargs =>
    exact .of_first ht rfl rfl rfl rfl (hargs.bracketed.past (hsep _))
  | nil => exact .nil
  | cons _ _ ih ih' =>
    rw [Clause.Bracketed, Statement.listNodes_append]
    exact Bracketed.trans ih ih'
  | block _ ih => exact fun t ht _ => .token ht ih
  | jump htarget _ ih =>
    exact fun t ht _ => .token ht (htarget.bracketed.past ((hsep _).past ih))
  | jumpBlock htarget _ ih =>
    -- the jump to the label stands at the word before the arm
    exact fun t ht hloc => .node ht rfl hloc.symm (htarget.bracketed.past ((hsep _).past ih))

end Readings

/-! ## Listings -/

/-- The tokens of a listing without a diagnostic hold the statements of its program. -/
theorem bracketed_of_isClean {bytes : List UInt8} (h : (parse bytes).isClean = true) :
    Bracketed (tokenize bytes) (Statement.listNodes (parse bytes).program) [] := by
  obtain ⟨body, finish, htokens, -, -, hreading⟩ := exists_reading_of_isClean h
  have hbody : Bracketed body _ [] := hreading.bracketed
  have hend : Bracketed [.endAt finish] [] [] := .skip rfl rfl .nil
  rw [htokens, ← List.append_nil (Statement.listNodes _)]
  exact (hbody.append _).trans hend

/-- In a listing without a diagnostic the words `FOR` and `NEXT` are balanced, the loops of the
program stand where the words `FOR` do, at places that all differ, and the statements of the body
of a loop are those that stand between its `FOR` and the `NEXT` that closes it. -/
theorem loops_match_of_isClean {bytes : List UInt8} (h : (parse bytes).isClean = true) :
    openLoops? 0 (tokenize bytes) = some 0 ∧
    (((Statement.listNodes (parse bytes).program).filter Statement.isLoop).map Statement.loc =
        ((tokenize bytes).filter (·.kind = .word .for_)).map (·.loc) ∧
      (((tokenize bytes).filter (·.kind = .word .for_)).map (·.loc)).Nodup) ∧
    ∀ (counter : String) (first last step : Expr) (body : List Statement) (loc : Location),
      .loop counter first last step body loc ∈ Statement.listNodes (parse bytes).program →
      ∃ opening closing, opening.loc = loc ∧ Matching (tokenize bytes) opening closing ∧
        ∀ s ∈ Statement.listNodes (parse bytes).program,
          s ∈ Statement.listNodes body ↔ loc.Before s.loc ∧ s.loc.Before closing.loc := by
  have hbracketed := bracketed_of_isClean h
  have hsorted := (Stream.ofDelivery (.ofBytes bytes)).tokens_pairwise_before
  refine ⟨hbracketed.openLoops?_eq 0, ⟨?_, ?_⟩, ?_⟩
  · simpa using hbracketed.locs_eq.symm
  · refine List.Pairwise.map _ ?_ (hsorted.sublist List.filter_sublist)
    exact fun _ _ hbefore => hbefore.ne
  · intro counter first last step body loc hloop
    obtain ⟨opening, closing, rfl, hencloses⟩ := hbracketed.encloses hsorted hloop
    exact ⟨opening, closing, rfl, hencloses.brackets, hencloses.between⟩

/-- The theorem at two loops, of which the outer one starts in an arm and ends lines below. -/
theorem loops_match_of_isClean_arm :
    (parse (Utf8.encode
      "10 IF A THEN FOR I = 1 TO 3\n20 FOR J = I TO 3 : X = J : NEXT\n30 NEXT I : Y = 1")).isClean =
      true ∧
    ((Statement.listNodes (parse (Utf8.encode
      "10 IF A THEN FOR I = 1 TO 3\n20 FOR J = I TO 3 : X = J : NEXT\n30 NEXT I : Y = 1")).program
      ).filter Statement.isLoop).map Statement.loc = [⟨1, 14⟩, ⟨2, 4⟩] := by
  have hclean : (parse (Utf8.encode
      "10 IF A THEN FOR I = 1 TO 3\n20 FOR J = I TO 3 : X = J : NEXT\n30 NEXT I : Y = 1")).isClean =
      true := by
    decide +kernel
  exact ⟨hclean, (loops_match_of_isClean hclean).2.1.1.trans (by decide +kernel)⟩

end LineBasic
