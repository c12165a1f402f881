import LineBasic.Proofs.Lowering.ReadBack
import LineBasic.Proofs.Spelling.Program.Spellable

/-!
# Subscripts stand behind declarations

Only a name that is declared has subscripts. In a listing without a diagnostic every element of an
array, read or assigned to, stands behind a declaration of the array that is part of the program
(`exists_declaration_of_isClean`). The parser looks a name up in its table, so this needs both that
the table holds what the statements kept so far declare, and that those stand before the tokens
still to be read.
-/

namespace LineBasic

/-- An element of an array stands behind one of the declarations, which is that of the array. -/
def Expr.Anchored (declarations : Declarations) : Expr → Prop
  | .var name (_ :: _) loc => ∃ d ∈ declarations, d.1 = name ∧ d.2.Before loc
  | _ => True

/-- What is anchored in some declarations is so in more of them. -/
theorem Expr.Anchored.mono {fewer more : Declarations} {e : Expr} (h : e.Anchored fewer)
    (hsubset : fewer ⊆ more) : e.Anchored more := by
  unfold Anchored at h ⊢
  split
  next =>
    obtain ⟨d, hd, hbefore⟩ := h
    exact ⟨d, hsubset hd, hbefore⟩
  next => trivial

/-- The expressions of a phrase, at any depth. -/
def Phrase.expressions : Phrase → List Expr
  | expr expression => expression.subexpressions
  | list expressions => Expr.listSubexpressions expressions
  | arguments expressions => Expr.listSubexpressions expressions

/-- The expressions of a clause, at any depth. -/
def Clause.expressions : Clause → List Expr
  | statement found => Statement.listExpressions found.toList
  | block statements => Statement.listExpressions statements
  | branch _ arm => arm.expressions

theorem Clause.expressions_statement (statement : Statement) :
    (Clause.statement (some statement)).expressions = statement.expressions :=
  List.append_nil _

/-- The expressions of two lists of statements stand one after the other. -/
theorem Statement.listExpressions_append (left right : List Statement) :
    Statement.listExpressions (left ++ right) =
      Statement.listExpressions left ++ Statement.listExpressions right := by
  induction left with
  | nil => rfl
  | cons head tail ih => rw [List.cons_append, listExpressions, listExpressions, ih,
      List.append_assoc]

/-! ## Expressions -/

section Expressions

variable {before : Declarations} {ts us : List Token} {phrase : Phrase}

/-- A declared name stands behind its declaration, if all declarations stand before the tokens. -/
theorem Declarations.Precede.anchored {t : Token} (h : before.Precede (t :: ts))
    (hdeclared : before.has t.literal = true) (indices : List Expr) :
    (Expr.var t.literal indices t.loc).Anchored before := by
  obtain ⟨place, hmem⟩ := Declarations.has_iff.1 hdeclared
  cases indices with
  | nil => trivial
  | cons head tail => exact ⟨_, hmem, rfl, h _ hmem t List.mem_cons_self⟩

/-- The elements of arrays in an expression stand behind what is declared where it is read. -/
theorem ExprReading.anchored (h : ExprReading before.has ts phrase us)
    (hprecede : before.Precede ts) : ∀ e ∈ phrase.expressions, e.Anchored before := by
  have hcons := fun (t : Token) (ts : List Token) => List.suffix_cons t ts
  induction h with
  | name => exact List.forall_mem_singleton.2 trivial
  | element _ hdeclared _ _ _ ih =>
    -- the array is declared before the expression, so the declaration stands before its name
    exact List.forall_mem_cons.2 ⟨hprecede.anchored hdeclared _,
      ih (hprecede.mono ((hcons _ _).trans (hcons _ _)))⟩
  | bareCall _ _ _ ih | call _ _ _ ih =>
    exact List.forall_mem_cons.2 ⟨trivial, ih (hprecede.mono (hcons _ _))⟩
  | groupedCall _ hname _ _ _ ih =>
    have hargs := hprecede.mono ((hcons _ _).trans (hname.suffix.trans (hcons _ _)))
    exact List.forall_mem_cons.2 ⟨trivial, ih hargs⟩
  | int | str => exact List.forall_mem_singleton.2 trivial
  | grouped _ _ _ ih => exact ih (hprecede.mono (hcons _ _))
  | unary _ _ ih =>
    exact List.forall_mem_cons.2 ⟨trivial, ih (hprecede.mono (hcons _ _))⟩
  | binary hleft _ _ ih ih' =>
    -- the right side is read from tokens further on, and so are the later items of a list
    have hsuffix := (hcons _ _).trans hleft.suffix
    exact List.forall_mem_cons.2 ⟨trivial,
      List.forall_mem_append.2 ⟨ih hprecede, ih' (hprecede.mono hsuffix)⟩⟩
  | one _ ih =>
    rw [Phrase.expressions, Expr.listSubexpressions, Expr.listSubexpressions, List.append_nil]
    exact ih hprecede
  | cons he _ _ ih ih' =>
    have hsuffix := (hcons _ _).trans he.suffix
    exact List.forall_mem_append.2 ⟨ih hprecede, ih' (hprecede.mono hsuffix)⟩
  | noArguments => exact List.forall_mem_nil _
  | someArguments _ _ _ ih => exact ih (hprecede.mono (hcons _ _))

/-- The expressions of a `STEP` are anchored in front of the loop. -/
theorem StepReading.anchored {loc : Location} {step : Expr}
    (h : StepReading before.has loc ts step us) (hprecede : before.Precede ts) :
    ∀ e ∈ step.subexpressions, e.Anchored before := by
  cases h with
  | given _ hstep => exact hstep.anchored (hprecede.mono (List.suffix_cons _ _))
  | default => exact List.forall_mem_singleton.2 trivial

/-- The expressions in the head of a loop are anchored in front of it. -/
theorem HeadReading.anchored {loc : Location} {counter : String} {first last step : Expr}
    (h : HeadReading before.has loc ts counter first last step us) (hprecede : before.Precede ts) :
    ∀ e ∈ Expr.listSubexpressions [first, last, step], e.Anchored before := by
  cases h with
  | head _ _ hfirst _ hlast hstep =>
    have hrest := hprecede.mono ((List.suffix_cons _ _).trans (List.suffix_cons _ _))
    have hbehind := hrest.mono ((List.suffix_cons _ _).trans hfirst.suffix)
    simp only [Expr.listSubexpressions, List.append_nil, List.forall_mem_append]
    exact ⟨hfirst.anchored hrest, hlast.anchored hbehind,
      hstep.anchored (hbehind.mono hlast.suffix)⟩

end Expressions

/-! ## Statements -/

section Statements

variable {before after : Declarations} {ts us : List Token} {clause : Clause}

/-- The elements of arrays in a clause stand behind what is declared once it is read. -/
theorem Reading.anchored (h : Reading before ts clause after us)
    (hsorted : ts.Pairwise fun first second => first.loc.Before second.loc)
    (hprecede : before.Precede ts) : ∀ e ∈ clause.expressions, e.Anchored after := by
  have hcons := fun (t : Token) (ts : List Token) => List.suffix_cons t ts
  -- an expression only sees what is declared before it, and that stays declared
  have hmore {before after : Declarations} {ts us : List Token} {clause : Clause}
      {expressions : List Expr} (hreading : Reading before ts clause after us)
      (h : ∀ e ∈ expressions, e.Anchored before) : ∀ e ∈ expressions, e.Anchored after :=
    fun e he => (h e he).mono hreading.before_subset
  induction h with
  | cond _ hcondition _ hconsequence ih =>
    have hrest := hprecede.mono (hcons _ _)
    have hsuffix := (hcons _ _).trans hcondition.suffix
    rw [Clause.expressions_statement, Statement.expressions, Branch.elseExpressions,
      List.append_nil, List.forall_mem_append]
    exact ⟨hmore hconsequence (hcondition.anchored hrest),
      ih (hsorted.of_cons.sublist hsuffix.sublist) (hrest.mono hsuffix)⟩
  | condElse _ hcondition _ hconsequence _ halternative ih ih' =>
    have hrest := hprecede.mono (hcons _ _)
    have hsuffix := (hcons _ _).trans hcondition.suffix
    have hsorted' := hsorted.of_cons.sublist hsuffix.sublist
    -- the second arm is read where the arrays of the first one are declared
    have hbehind := (hrest.mono hsuffix).behind hconsequence hsorted'
    have hsecond := (hcons _ _).trans hconsequence.suffix
    rw [Clause.expressions_statement, Statement.expressions, Branch.elseExpressions,
      List.forall_mem_append, List.forall_mem_append]
    refine ⟨⟨?_, ?_⟩, ?_⟩
    · exact hmore halternative (hmore hconsequence (hcondition.anchored hrest))
    · exact hmore halternative (ih hsorted' (hrest.mono hsuffix))
    · exact ih' (hsorted'.sublist hsecond.sublist) (hbehind.mono (hcons _ _))
  | on _ hvalue =>
    rw [Clause.expressions_statement]
    exact hvalue.anchored (hprecede.mono (hcons _ _))
  | loop _ hhead hbody _ ih =>
    -- the bounds are read before the body, and see none of the arrays that it declares
    have hrest := hprecede.mono (hcons _ _)
    rw [Clause.expressions_statement, Statement.expressions, List.forall_mem_append]
    exact ⟨hmore hbody (hhead.anchored hrest),
      ih (hsorted.of_cons.sublist hhead.suffix.sublist) (hrest.mono hhead.suffix)⟩
  | assign _ _ hvalue =>
    rw [Clause.expressions_statement]
    exact List.forall_mem_append.2 ⟨List.forall_mem_singleton.2 trivial,
      hvalue.anchored (hprecede.mono ((hcons _ _).trans (hcons _ _)))⟩
  | assignElement _ hdeclared _ hindices _ _ hvalue =>
    have hrest := hprecede.mono ((hcons _ _).trans (hcons _ _))
    have hsuffix := ((hcons _ _).trans (hcons _ _)).trans hindices.suffix
    rw [Clause.expressions_statement]
    refine List.forall_mem_append.2 ⟨List.forall_mem_cons.2 ⟨?_, hindices.anchored hrest⟩, ?_⟩
    · exact hprecede.anchored hdeclared _
    · exact hvalue.anchored (hrest.mono hsuffix)
  | plainCall =>
    rw [Clause.expressions_statement]
    exact List.forall_mem_singleton.2 trivial
  | call _ _ hargs | bareCall _ _ hargs =>
    rw [Clause.expressions_statement]
    exact List.forall_mem_cons.2 ⟨trivial, hargs.anchored (hprecede.mono (hcons _ _))⟩
  | cons hfound hstatements ih ih' =>
    rw [Clause.expressions, Statement.listExpressions_append, List.forall_mem_append]
    exact ⟨hmore hstatements (ih hsorted hprecede),
      ih' (hsorted.sublist hfound.suffix.sublist) (hprecede.behind hfound hsorted)⟩
  | block _ ih => exact ih hsorted hprecede
  | jumpBlock htarget _ ih =>
    have hsuffix := (afterSeparator_suffix _).trans htarget.suffix
    exact ih (hsorted.sublist hsuffix.sublist) (hprecede.mono hsuffix)
  | _ => exact List.forall_mem_nil _

end Statements

/-! ## Listings -/

/-- In a program without a diagnostic, a name with subscripts stands behind a declaration of an
array of that name in the program. -/
theorem exists_declaration_of_isClean {bytes : List UInt8} (h : (parse bytes).isClean = true)
    {name : String} {indices : List Expr} {loc : Location}
    (hmem : Expr.var name indices loc ∈ Statement.listExpressions (parse bytes).program)
    (hindices : indices ≠ []) :
    ∃ d ∈ Statement.listDeclarations (parse bytes).program, d.1 = name ∧ d.2.Before loc := by
  obtain ⟨body, finish, -, -, hsorted, hreading⟩ := exists_reading_of_isClean h
  have hanchored := hreading.anchored hsorted .nil _ hmem
  obtain ⟨head, tail, rfl⟩ := List.exists_cons_of_ne_nil hindices
  obtain ⟨d, hd, hname, hbefore⟩ := hanchored
  rw [arrays_final_of_isClean h, List.mem_reverse] at hd
  exact ⟨d, hd, hname, hbefore⟩

/-- The theorem at an element in a loop, of an array that an arm declares. -/
theorem exists_declaration_of_isClean_arm :
    ∃ indices loc, indices ≠ [] ∧
      Expr.var "A" indices loc ∈ Statement.listExpressions (parse (Utf8.encode
        "10 IF B THEN DIM A(3)\n20 FOR I = 1 TO 3 : X = F(A(I)) : NEXT")).program ∧
      ∃ d ∈ Statement.listDeclarations (parse (Utf8.encode
          "10 IF B THEN DIM A(3)\n20 FOR I = 1 TO 3 : X = F(A(I)) : NEXT")).program,
        d.1 = "A" ∧ d.2.Before loc := by
  have hclean : (parse (Utf8.encode
      "10 IF B THEN DIM A(3)\n20 FOR I = 1 TO 3 : X = F(A(I)) : NEXT")).isClean = true := by
    decide +kernel
  obtain ⟨e, he, helement⟩ : ∃ e ∈ Statement.listExpressions (parse (Utf8.encode
      "10 IF B THEN DIM A(3)\n20 FOR I = 1 TO 3 : X = F(A(I)) : NEXT")).program,
      (match e with | .var name (_ :: _) _ => name == "A" | _ => false) = true := by
    decide +kernel
  -- the element is a name with subscripts, and the name is that of the array
  split at helement
  next name head tail loc =>
    obtain rfl : name = "A" := beq_iff_eq.1 helement
    have hindices : head :: tail ≠ [] := List.cons_ne_nil _ _
    exact ⟨_, loc, hindices, he, exists_declaration_of_isClean hclean he hindices⟩
  next => exact absurd helement Bool.false_ne_true

end LineBasic
