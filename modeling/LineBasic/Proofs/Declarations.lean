import LineBasic.Proofs.Grammar.Soundness

/-!
# Declarations of a program

The arrays that the statements of a program declare, in the order of the listing. In a listing
without a diagnostic these are the arrays that the parser knows at the end
(`arrays_final_of_isClean`), and without a `DIM` there are none (`isArray_final_of_not_dim`).
-/

namespace LineBasic

/-- What an array of a declaration declares. -/
def ArrayDecl.entry (array : ArrayDecl) : String × Location :=
  (array.name, array.loc)

mutual

/-- The arrays that an arm declares. -/
def Branch.declarations : Branch → Declarations
  | .goto _ => []
  | .block statements => Statement.listDeclarations statements

/-- The arrays that an arm declares which may be missing. -/
def Branch.elseDeclarations : Option Branch → Declarations
  | none => []
  | some branch => branch.declarations

/-- The arrays that a statement declares. -/
def Statement.declarations : Statement → Declarations
  | .dim arrays _ => arrays.map ArrayDecl.entry
  | .cond _ consequence alternative _ =>
    consequence.declarations ++ Branch.elseDeclarations alternative
  | .loop _ _ _ _ body _ => Statement.listDeclarations body
  | _ => []

/-- The arrays that some statements declare. -/
def Statement.listDeclarations : List Statement → Declarations
  | [] => []
  | head :: tail => head.declarations ++ Statement.listDeclarations tail

end

/-- The declarations of two lists of statements stand one after the other. -/
theorem Statement.listDeclarations_append (left right : List Statement) :
    Statement.listDeclarations (left ++ right) =
      Statement.listDeclarations left ++ Statement.listDeclarations right := by
  induction left with
  | nil => rfl
  | cons head tail ih =>
    rw [List.cons_append, listDeclarations, listDeclarations, ih, List.append_assoc]

/-- The arrays that a clause declares. -/
def Clause.declarations : Clause → Declarations
  | .statement found => Statement.listDeclarations found.toList
  | .block statements => Statement.listDeclarations statements
  | .branch _ arm => arm.declarations

theorem Clause.declarations_statement (statement : Statement) :
    (Clause.statement (some statement)).declarations = statement.declarations :=
  List.append_nil _

/-- The latest declaration comes first in the table of the parser. -/
theorem Reading.after_eq {before after : Declarations} {ts us : List Token} {clause : Clause}
    (h : Reading before ts clause after us) : after = clause.declarations.reverse ++ before := by
  -- only `DIM` adds to the table; a statement with parts hands it from one part to the next
  induction h with
  | dim => rw [Clause.declarations_statement]; rfl
  | cond _ _ _ _ ih =>
    rw [ih, Clause.declarations_statement]
    simp [Clause.declarations, Statement.declarations, Branch.elseDeclarations]
  | condElse _ _ _ _ _ _ ih ih' =>
    rw [ih', ih, Clause.declarations_statement]
    simp [Clause.declarations, Statement.declarations, Branch.elseDeclarations]
  | loop _ _ _ _ ih => rw [ih, Clause.declarations_statement]; rfl
  | cons _ _ ih ih' =>
    rw [ih', ih]
    simp [Clause.declarations, Statement.listDeclarations_append]
  | block _ ih | jump _ _ ih | jumpBlock _ _ ih => exact ih
  | _ => rfl

/-- Without `DIM` nothing is declared. -/
theorem Reading.declarations_eq_nil {before after : Declarations} {ts us : List Token}
    {clause : Clause} (h : Reading before ts clause after us)
    (hdim : ∀ token ∈ ts, token.kind ≠ .word .dim) : clause.declarations = [] := by
  -- the parts of a statement are read from suffixes of its tokens, which have no `DIM` either
  have hless {ts vs : List Token} (hdim : ∀ token ∈ ts, token.kind ≠ .word .dim)
      (hsuffix : vs <:+ ts) : ∀ token ∈ vs, token.kind ≠ .word .dim :=
    fun token htoken => hdim token (hsuffix.subset htoken)
  have hcons := fun (t : Token) (ts : List Token) => List.suffix_cons t ts
  induction h with
  | dim ht => exact absurd ht (hdim _ List.mem_cons_self)
  | cond _ hcondition _ _ ih =>
    have harm := hless hdim ((hcons _ _).trans (hcondition.suffix.trans (hcons _ _)))
    rw [Clause.declarations_statement, Statement.declarations, Branch.elseDeclarations,
      List.append_nil]
    exact ih harm
  | condElse _ hcondition _ hconsequence _ _ ih ih' =>
    have harm := hless hdim ((hcons _ _).trans (hcondition.suffix.trans (hcons _ _)))
    have harm' := hless harm ((hcons _ _).trans hconsequence.suffix)
    have hfirst := ih harm
    have hsecond := ih' harm'
    rw [Clause.declarations] at hfirst hsecond
    rw [Clause.declarations_statement, Statement.declarations, Branch.elseDeclarations, hfirst,
      hsecond, List.append_nil]
  | loop _ hhead _ _ ih =>
    rw [Clause.declarations_statement, Statement.declarations]
    exact ih (hless hdim (hhead.suffix.trans (hcons _ _)))
  | cons hfound _ ih ih' =>
    have hfirst := ih hdim
    have hothers := ih' (hless hdim hfound.suffix)
    simp only [Clause.declarations] at hfirst hothers ⊢
    rw [Statement.listDeclarations_append, hfirst, hothers, List.append_nil]
  | block _ ih => exact ih hdim
  | jump htarget _ ih | jumpBlock htarget _ ih =>
    exact ih (hless hdim ((afterSeparator_suffix _).trans htarget.suffix))
  | _ => rfl

/-- What a listing without a diagnostic declares is what the parser knows at its end. -/
theorem arrays_final_of_isClean {bytes : List UInt8} (h : (parse bytes).isClean = true) :
    (parse bytes).final.arrays = (Statement.listDeclarations (parse bytes).program).reverse := by
  obtain ⟨_, _, -, -, -, hreading⟩ := exists_reading_of_isClean h
  exact hreading.after_eq.trans (List.append_nil _)

/-- A name is that of an array if one of the declarations is for it. -/
theorem Declarations.has_iff {arrays : Declarations} {name : String} :
    arrays.has name = true ↔ ∃ loc, (name, loc) ∈ arrays := by
  induction arrays with
  | nil => simp [has]
  | cons entry arrays ih =>
    obtain ⟨other, place⟩ := entry
    simp only [has, List.lookup_cons] at ih ⊢
    -- the look-up stops at the first entry of the name, which is as good as any other
    by_cases hname : name = other
    · subst hname
      simp
    · rw [show (name == other) = false from beq_eq_false_iff_ne.2 hname]
      simp [hname, ih]

/-- A listing without a diagnostic and without `DIM` leaves no array behind. -/
theorem isArray_final_of_not_dim {bytes : List UInt8} (h : (parse bytes).isClean = true)
    (hdim : ∀ token ∈ tokenize bytes, token.kind ≠ .word .dim) (name : String) :
    (parse bytes).final.isArray name = false := by
  obtain ⟨body, finish, htokens, -, -, hreading⟩ := exists_reading_of_isClean h
  have hnone : Statement.listDeclarations (parse bytes).program = [] :=
    hreading.declarations_eq_nil fun token htoken =>
      hdim token (htokens ▸ List.mem_append_left _ htoken)
  rw [Cursor.isArray, Cursor.declaration?, arrays_final_of_isClean h, hnone]
  rfl

/-- Whether some statements declare an array of the name given. -/
def Statement.listDeclares (statements : List Statement) (name : String) : Bool :=
  (Statement.listDeclarations statements).any (·.1 == name)

/-- In the end, the arrays are those that the statements of a clean listing declare. -/
theorem isArray_final_of_isClean {bytes : List UInt8} (h : (parse bytes).isClean = true) :
    (parse bytes).final.isArray = Statement.listDeclares (parse bytes).program := by
  funext name
  rw [Bool.eq_iff_iff, ← Cursor.has_arrays, Declarations.has_iff, arrays_final_of_isClean h]
  simp [Statement.listDeclares]

end LineBasic
