import LineBasic.Proofs.Grammar.Contents
import LineBasic.Proofs.Grammar.Levels
import LineBasic.Proofs.Spelling.RoundTrip

/-!
# How deep the tree of a program is

The parser stops at `maxNesting` levels of statements and expressions inside each other, and a
tree might be expected to be no deeper than that. Its loop puts the left operand of an operator
into the operation without a level of its own, so that is true of paths on which going on to a
left operand counts for nothing (`height_le_maxNesting`). If it counts, as it does for anything
that walks over the tree, then there is no bound at all: a sum of many terms is as deep as it is
long (`exists_height_gt`).
-/

namespace LineBasic

open Cursor Parse

/-! ## Heights -/

mutual

/-- The number of nodes on the longest path down an expression, where a node from which the path
goes on to its left operand counts `left`. -/
def Expr.height (left : Nat) : Expr → Nat
  | .var _ indices _ => Expr.listHeight left indices + 1
  | .int _ => 1
  | .str _ _ => 1
  | .unary _ operand _ => operand.height left + 1
  | .binary _ first second _ => max (first.height left + left) (second.height left + 1)
  | .call _ arguments _ => Expr.listHeight left arguments + 1

/-- The greatest height of some expressions. -/
def Expr.listHeight (left : Nat) : List Expr → Nat
  | [] => 0
  | head :: tail => max (head.height left) (Expr.listHeight left tail)

end

mutual

/-- The greatest height of the statements of an arm. -/
def Branch.height (left : Nat) : Branch → Nat
  | .goto _ => 0
  | .block statements => Statement.listHeight left statements

/-- The height of an arm that may be missing. -/
def Branch.elseHeight (left : Nat) : Option Branch → Nat
  | none => 0
  | some branch => branch.height left

/-- The number of nodes on the longest path down a statement, itself counted, where a node from
which the path goes on to its left operand counts `left`. -/
def Statement.height (left : Nat) : Statement → Nat
  | .lineNumber _ _ _ => 1
  | .label _ _ => 1
  | .dim _ _ => 1
  | .cond condition consequence alternative _ =>
    max (condition.height left)
      (max (consequence.height left) (Branch.elseHeight left alternative)) + 1
  | .on value _ _ _ => value.height left + 1
  | .goto _ _ => 1
  | .gosub _ _ => 1
  | .ret _ => 1
  | .loop _ first last step body _ =>
    max (Expr.listHeight left [first, last, step]) (Statement.listHeight left body) + 1
  | .assign _ indices value _ => max (Expr.listHeight left indices) (value.height left) + 1
  | .call _ arguments _ => Expr.listHeight left arguments + 1

/-- The greatest height of some statements. -/
def Statement.listHeight (left : Nat) : List Statement → Nat
  | [] => 0
  | head :: tail => max (head.height left) (Statement.listHeight left tail)

end

section Heights

variable {left limit : Nat}

/-- A list is as high as its highest expression. -/
theorem Expr.listHeight_le {expressions : List Expr} :
    Expr.listHeight left expressions ≤ limit ↔ ∀ e ∈ expressions, e.height left ≤ limit := by
  induction expressions with
  | nil => simp [listHeight]
  | cons head tail ih => rw [listHeight, Nat.max_le, ih, List.forall_mem_cons]

/-- A list is as high as its highest statement. -/
theorem Statement.listHeight_le {statements : List Statement} :
    Statement.listHeight left statements ≤ limit ↔ ∀ s ∈ statements, s.height left ≤ limit := by
  induction statements with
  | nil => simp [listHeight]
  | cons head tail ih => rw [listHeight, Nat.max_le, ih, List.forall_mem_cons]

/-- An arm is as high as its highest statement. -/
theorem Branch.height_le {branch : Branch} :
    branch.height left ≤ limit ↔ ∀ s ∈ branch.statements, s.height left ≤ limit := by
  cases branch with
  | goto target => simp [height, statements]
  | block statements => exact Statement.listHeight_le

/-- The places in an expression do not matter for its height. -/
theorem Expr.height_unplaced (expression : Expr) :
    expression.unplaced.height left = expression.height left := by
  -- the recursion over a list goes through its items
  have hlist {expressions : List Expr}
      (h : ∀ e ∈ expressions, e.unplaced.height left = e.height left) :
      Expr.listHeight left (expressions.map Expr.unplaced) = Expr.listHeight left expressions := by
    induction expressions with
    | nil => rfl
    | cons head tail ih =>
      rw [List.forall_mem_cons] at h
      rw [List.map_cons, listHeight, listHeight, h.1, ih h.2]
  induction expression using Expr.induction with
  | var name indices loc ih => rw [unplaced_var, height, height, hlist ih]
  | int literal | str text loc => rfl
  | unary op operand loc ih => rw [unplaced_unary, height, height, ih]
  | binary op first second loc ih ih' => rw [unplaced_binary, height, height, ih, ih']
  | call function arguments loc ih => rw [unplaced_call, height, height, hlist ih]

end Heights

/-! ## The bound on levels -/

/-- The expressions of a list are no higher than the levels it takes. -/
theorem Expr.listHeight_le_listLevels {expressions : List Expr}
    (h : ∀ e ∈ expressions, e.height 0 ≤ e.levels + 1) :
    Expr.listHeight 0 expressions ≤ Expr.listLevels expressions := by
  induction expressions with
  | nil => exact Nat.zero_le _
  | cons head tail ih =>
    rw [List.forall_mem_cons] at h
    have htail := ih h.2
    rw [listHeight, listLevels]
    omega

/-- The parser opens a level for every node of a path, but for those at which the path goes on to
a left operand. -/
theorem Expr.height_le (expression : Expr) : expression.height 0 ≤ expression.levels + 1 := by
  induction expression using Expr.induction with
  | var name indices loc ih => exact Nat.succ_le_succ (Expr.listHeight_le_listLevels ih)
  | int literal | str text loc => exact Nat.le_refl _
  | unary op operand loc ih =>
    have hgroup := (groupLevels_le.1 (Nat.le_refl
      (groupLevels (operand.isWeaker Grammar.unaryPower) operand.levels))).1
    rw [height, levels]
    omega
  | binary op first second loc ih ih' =>
    have hfirst := (groupLevels_le.1 (Nat.le_refl
      (groupLevels (first.isWeaker op.power) first.levels))).1
    have hsecond := (groupLevels_le.1 (Nat.le_refl
      (groupLevels (second.isWeaker (op.power + 1)) second.levels))).1
    -- only the right operand has a level of its own, and only there the node counts
    rw [height, levels]
    omega
  | call function arguments loc ih => exact Nat.succ_le_succ (Expr.listHeight_le_listLevels ih)

/-- The expression needs fewer levels than there are. -/
def Expr.FitsIn (levels : Nat) (expression : Expr) : Prop := expression.levels + 1 ≤ levels

/-- A statement is no higher than the levels it has been read with. -/
theorem Statement.height_le {levels : Nat} {statement : Statement}
    (h : statement.Within (fun levels => Expr.FitsIn levels) levels) :
    statement.height 0 ≤ levels := by
  have hexpr {levels : Nat} {e : Expr} (he : e.FitsIn levels) : e.height 0 ≤ levels :=
    Nat.le_trans e.height_le he
  induction h with
  | @intro levels statement hheads hoperands _ ih =>
    cases statement with
    | cond condition consequence alternative loc =>
      have hcondition := hexpr (hoperands condition List.mem_cons_self)
      have hconsequence : consequence.height 0 ≤ levels :=
        Branch.height_le.2 fun s hs => ih s (List.mem_append_left _ hs)
      have halternative : Branch.elseHeight 0 alternative ≤ levels := by
        cases alternative with
        | none => exact Nat.zero_le _
        | some arm =>
          exact Branch.height_le.2 fun s hs =>
            ih s (List.mem_append_right _ (by simpa using hs))
      rw [height]
      omega
    | on value kind targets loc =>
      exact Nat.succ_le_succ (hexpr (hoperands value List.mem_cons_self))
    | loop counter first last step body loc =>
      have hbounds : Expr.listHeight 0 [first, last, step] ≤ levels :=
        Expr.listHeight_le.2 fun e he => hexpr (hoperands e he)
      have hbody : Statement.listHeight 0 body ≤ levels := Statement.listHeight_le.2 ih
      rw [height]
      omega
    | assign name indices value loc =>
      -- the variable stands at the level of the statement, its subscripts one below
      have hvalue := hexpr (hoperands value List.mem_cons_self)
      have hindices : (Expr.var name indices loc).levels + 1 ≤ levels + 1 :=
        hheads _ List.mem_cons_self
      have hlist : Expr.listHeight 0 indices ≤ Expr.listLevels indices :=
        Expr.listHeight_le_listLevels fun e _ => e.height_le
      rw [Expr.levels] at hindices
      rw [height]
      omega
    | call function arguments loc =>
      exact hexpr (hheads (.call function arguments loc) List.mem_cons_self)
    | _ => exact Nat.succ_le_succ (Nat.zero_le _)

namespace Grammar

/-- The parser finds only expressions that fit in the levels that are left. -/
theorem passes_fitsIn : Passes (fun _ => True) fun levels => Expr.FitsIn levels where
  found levels power := .of_keeps (expression_keeps growth_leads.toDrift levels power)
    fun _ _ _ => (expression_levels levels).levels_lt
  var _ _ _ _ _ h := Nat.succ_le_succ (Expr.listLevels_le h)
  call _ _ _ _ _ h := Nat.succ_le_succ (Expr.listLevels_le h)
  one _ _ _ h := Nat.le_trans (Nat.succ_le_succ (Nat.zero_le _)) h

end Grammar

/-- No path down a statement of a program has more than `maxNesting` nodes, those not counted from
which it goes on to a left operand. That holds whether or not something is wrong with the
listing. -/
theorem height_le_maxNesting (bytes : List UInt8) :
    ∀ statement ∈ (parse bytes).program, statement.height 0 ≤ maxNesting := by
  intro statement hstatement
  refine Statement.height_le ?_
  exact program_within Grammar.passes_fitsIn bytes (fun _ _ => trivial) statement hstatement

/-- The bound at a program whose loop holds a choice and, in its condition, a call. -/
theorem height_le_maxNesting_nested :
    ∃ statement ∈
        (parse (Utf8.encode "10 FOR I = 1 TO 3\n20 IF F(A, -B) THEN X = 1\n30 NEXT")).program,
      statement.height 0 = 5 ∧ statement.height 0 ≤ maxNesting := by
  obtain ⟨statement, hstatement, hheight⟩ : ∃ statement ∈
      (parse (Utf8.encode "10 FOR I = 1 TO 3\n20 IF F(A, -B) THEN X = 1\n30 NEXT")).program,
      statement.height 0 = 5 := by
    decide +kernel
  exact ⟨statement, hstatement, hheight, height_le_maxNesting _ statement hstatement⟩

/-! ## Sums -/

/-- A sum of ones, with `count` operators. -/
def sumOfOnes : (count : Nat) → Expr
  | 0 => .int ⟨1, "1", .start⟩
  | count + 1 => .binary .add (sumOfOnes count) (.int ⟨1, "1", .start⟩) .start

/-- Each further one puts the sum before it one level down. -/
theorem height_sumOfOnes (count : Nat) : (sumOfOnes count).height 1 = count + 1 := by
  induction count with
  | zero => rfl
  | succ count ih =>
    rw [sumOfOnes, Expr.height, ih, Expr.height]
    omega

/-- A sum of ones can be written, however long it is. -/
theorem isSpellable_sumOfOnes (declared : String → Bool) (count : Nat) :
    (sumOfOnes count).isSpellable declared = true := by
  induction count with
  | zero => rfl
  | succ count ih =>
    rw [sumOfOnes, Expr.isSpellable, ih]
    rfl

/-- A sum needs no parentheses, so it takes one level, however long it is. -/
theorem levels_sumOfOnes (count : Nat) : (sumOfOnes count).levels ≤ 1 := by
  induction count with
  | zero => exact Nat.zero_le _
  | succ count ih =>
    have hweak : (sumOfOnes count).isWeaker BinaryOp.add.power = false := by
      cases count <;> rfl
    rw [sumOfOnes, Expr.levels, hweak]
    exact Nat.max_le.2 ⟨ih, Nat.le_refl _⟩

/-- There are programs as deep as one likes, with nothing wrong in their listings. -/
theorem exists_height_gt (limit : Nat) :
    ∃ bytes, (parse bytes).isClean = true ∧
      ∃ statement ∈ (parse bytes).program, limit < statement.height 1 := by
  have hvalue (declared : String → Bool) := isSpellable_sumOfOnes declared limit
  have hlevels : (sumOfOnes limit).levels + 2 ≤ maxNesting :=
    Nat.le_trans (Nat.add_le_add_right (levels_sumOfOnes limit) 2) (by decide)
  -- the line alone is the listing
  have hnumber : isDigits "10" = true := by decide
  have hname : isName "X" = true := by decide
  obtain ⟨body, finish, htokens, hfaces⟩ :=
    tokenizesTo_assignmentLine 0 hnumber hname (hvalue fun _ => false)
  obtain ⟨hprogram, hfinal⟩ := parse_of_tokenize htokens
  have hshows : Shows ((.lineNo, "10") :: (.ident, "X") :: (.sym .eq, "=") ::
      Mark.faces ((sumOfOnes limit).marks 0)) (Cursor.start body finish []).tokens [] :=
    ⟨body, (List.append_nil _).symm, hfaces⟩
  obtain ⟨found, numberLoc, loc, hsame, hsteps, hdiagnostics⟩ :=
    Grammar.exists_steps_assignmentLine (hvalue _) hlevels hshows
  refine ⟨assignmentLine 0 "10" "X" (sumOfOnes limit), ?_, .assign "X" [] found loc, ?_, ?_⟩
  · rw [Listing.isClean, Listing.diagnostics, hfinal, hdiagnostics]
    rfl
  · rw [hprogram, hsteps]
    exact List.mem_cons_of_mem _ List.mem_cons_self
  · have hheight : found.height 1 = limit + 1 := by
      rw [← Expr.height_unplaced, hsame, Expr.height_unplaced, height_sumOfOnes]
    rw [Statement.height, hheight]
    omega

/-- Nothing is wrong with a line that assigns a sum of 64 ones, although the path from the
assignment to the first one has 65 nodes. -/
theorem height_sum_gt_maxNesting :
    (parse (Utf8.encode "10 X = 1" ++
        (List.replicate 63 (Utf8.encode " + 1")).flatten)).isClean = true ∧
      ¬∀ statement ∈ (parse (Utf8.encode "10 X = 1" ++
          (List.replicate 63 (Utf8.encode " + 1")).flatten)).program,
        statement.height 1 ≤ maxNesting := by
  decide +kernel

end LineBasic
