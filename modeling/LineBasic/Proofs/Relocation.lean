import LineBasic.Diagnostic
import LineBasic.Statement

/-!
# Moving a listing

What a change of places does to tokens, trees and diagnostics, and the change of places that
lines in front of a listing bring about: all it does is to move further down.
-/

namespace LineBasic

/-- The same column, some lines further down. -/
def Location.down (lines : Nat) (loc : Location) : Location :=
  ⟨loc.line + lines, loc.column⟩

/-- Reading on and moving down commute. -/
theorem Location.down_next (lines : Nat) (loc : Location) (b : UInt8) :
    (loc.next b).down lines = (loc.down lines).next b := by
  unfold next down
  split <;> simp [Nat.add_right_comm]

/-- The line changes at line feeds only. -/
theorem Location.line_after (loc : Location) (bytes : List UInt8) :
    (loc.after bytes).line = loc.line + bytes.count 0x0A := by
  induction bytes generalizing loc with
  | nil => rfl
  | cons b bytes ih =>
    rw [after_cons, ih, List.count_cons, next]
    by_cases hb : b = 0x0A
    -- only a line feed changes the line, and it is what is counted
    · simp only [hb, if_true, beq_self_eq_true]
      omega
    · simp [hb]

variable (place : Location → Location)

/-- The token at another place. -/
def Token.relocate (token : Token) : Token :=
  { token with loc := place token.loc }

@[simp]
theorem Token.kind_relocate (token : Token) : (token.relocate place).kind = token.kind := rfl

@[simp]
theorem Token.literal_relocate (token : Token) :
    (token.relocate place).literal = token.literal := rfl

@[simp]
theorem Token.loc_relocate (token : Token) : (token.relocate place).loc = place token.loc := rfl

/-- The diagnostic at another place. -/
def Diagnostic.relocate (diagnostic : Diagnostic) : Diagnostic :=
  { diagnostic with loc := place diagnostic.loc }

/-! ## Trees -/

/-- The integer at another place. -/
def IntLit.relocate (literal : IntLit) : IntLit :=
  { literal with loc := place literal.loc }

mutual

/-- The expression at other places. -/
def Expr.relocate : Expr → Expr
  | .var name indices loc => .var name (Expr.relocateAll indices) (place loc)
  | .int literal => .int (literal.relocate place)
  | .str text loc => .str text (place loc)
  | .unary op operand loc => .unary op operand.relocate (place loc)
  | .binary op left right loc => .binary op left.relocate right.relocate (place loc)
  | .call function arguments loc => .call function (Expr.relocateAll arguments) (place loc)

/-- Some expressions at other places. -/
def Expr.relocateAll : List Expr → List Expr
  | [] => []
  | head :: tail => head.relocate :: Expr.relocateAll tail

end

/-- The jump target at another place. -/
def JumpTarget.relocate (target : JumpTarget) : JumpTarget :=
  { target with loc := place target.loc }

/-- The data at another place. -/
def DataItem.relocate (item : DataItem) : DataItem :=
  { item with loc := place item.loc }

/-- The array of a declaration at other places. -/
def ArrayDecl.relocate (array : ArrayDecl) : ArrayDecl :=
  ⟨array.name, array.sizes.map (·.relocate place), place array.loc⟩

mutual

/-- The arm at other places. -/
def Branch.relocate : Branch → Branch
  | .goto target => .goto (target.relocate place)
  | .block statements => .block (Statement.relocateAll statements)

/-- The arm that may be missing, at other places. -/
def Branch.relocateElse : Option Branch → Option Branch
  | none => none
  | some branch => some branch.relocate

/-- The statement at other places. -/
def Statement.relocate : Statement → Statement
  | .lineNumber name data loc => .lineNumber name (data.map (·.relocate place)) (place loc)
  | .label name loc => .label name (place loc)
  | .dim arrays loc => .dim (arrays.map (·.relocate place)) (place loc)
  | .cond condition consequence alternative loc =>
    .cond (condition.relocate place) consequence.relocate (Branch.relocateElse alternative)
      (place loc)
  | .on value kind targets loc =>
    .on (value.relocate place) kind (targets.map (·.relocate place)) (place loc)
  | .goto target loc => .goto (target.relocate place) (place loc)
  | .gosub target loc => .gosub (target.relocate place) (place loc)
  | .ret loc => .ret (place loc)
  | .loop counter first last step body loc =>
    .loop counter (first.relocate place) (last.relocate place) (step.relocate place)
      (Statement.relocateAll body) (place loc)
  | .assign name indices value loc =>
    .assign name (Expr.relocateAll place indices) (value.relocate place) (place loc)
  | .call function arguments loc =>
    .call function (Expr.relocateAll place arguments) (place loc)

/-- Some statements at other places. -/
def Statement.relocateAll : List Statement → List Statement
  | [] => []
  | head :: tail => head.relocate :: Statement.relocateAll tail

end

/-- The recursion over a list of expressions is a map. -/
@[simp]
theorem Expr.relocateAll_eq_map (expressions : List Expr) :
    Expr.relocateAll place expressions = expressions.map (·.relocate place) := by
  induction expressions with
  | nil => rfl
  | cons head tail ih => rw [Expr.relocateAll, ih, List.map_cons]

/-- The recursion over a list of statements is a map. -/
@[simp]
theorem Statement.relocateAll_eq_map (statements : List Statement) :
    Statement.relocateAll place statements = statements.map (·.relocate place) := by
  induction statements with
  | nil => rfl
  | cons head tail ih => rw [Statement.relocateAll, ih, List.map_cons]

@[simp]
theorem Branch.relocateElse_eq_map (alternative : Option Branch) :
    Branch.relocateElse place alternative = alternative.map (·.relocate place) := by
  cases alternative <;> rfl

/-! ## Staying where one is -/

@[simp]
theorem Token.relocate_id (token : Token) : token.relocate id = token := rfl

@[simp]
theorem Diagnostic.relocate_id (diagnostic : Diagnostic) :
    diagnostic.relocate id = diagnostic := rfl

-- by recursion on the trees, since `relocate` goes through their lists by functions of its own
mutual

/-- An expression stays as it is if its places do. -/
@[simp]
theorem Expr.relocate_id : ∀ expression : Expr, expression.relocate id = expression
  | .var name indices loc => by rw [Expr.relocate, Expr.relocateAll_id indices, id]
  | .int literal => rfl
  | .str text loc => rfl
  | .unary op operand loc => by rw [Expr.relocate, operand.relocate_id, id]
  | .binary op left right loc => by rw [Expr.relocate, left.relocate_id, right.relocate_id, id]
  | .call function arguments loc => by rw [Expr.relocate, Expr.relocateAll_id arguments, id]

theorem Expr.relocateAll_id :
    ∀ expressions : List Expr, Expr.relocateAll id expressions = expressions
  | [] => rfl
  | head :: tail => by rw [Expr.relocateAll, head.relocate_id, Expr.relocateAll_id tail]

end

theorem ArrayDecl.relocate_id (array : ArrayDecl) : array.relocate id = array := by
  -- `IntLit.relocate id` is the identity by its eta rule
  have hsizes : array.sizes.map (·.relocate id) = array.sizes := List.map_id _
  rw [ArrayDecl.relocate, hsizes, id]

mutual

theorem Branch.relocate_id : ∀ branch : Branch, branch.relocate id = branch
  | .goto target => rfl
  | .block statements => by rw [Branch.relocate, Statement.relocateAll_id statements]

theorem Branch.relocateElse_id :
    ∀ alternative : Option Branch, Branch.relocateElse id alternative = alternative
  | none => rfl
  | some branch => by rw [Branch.relocateElse, branch.relocate_id]

/-- A statement stays as it is if its places do. -/
@[simp]
theorem Statement.relocate_id : ∀ statement : Statement, statement.relocate id = statement
  | .lineNumber name data loc => by cases data <;> rfl
  | .label name loc => rfl
  | .dim arrays loc => by
    have harrays : arrays.map (·.relocate id) = arrays := by simp [ArrayDecl.relocate_id]
    rw [Statement.relocate, harrays, id]
  | .cond condition consequence alternative loc => by
    rw [Statement.relocate, condition.relocate_id, consequence.relocate_id,
      Branch.relocateElse_id alternative, id]
  | .on value kind targets loc => by
    have htargets : targets.map (·.relocate id) = targets := List.map_id _
    rw [Statement.relocate, value.relocate_id, htargets, id]
  | .goto target loc => rfl
  | .gosub target loc => rfl
  | .ret loc => rfl
  | .loop counter first last step body loc => by
    rw [Statement.relocate, first.relocate_id, last.relocate_id, step.relocate_id,
      Statement.relocateAll_id body, id]
  | .assign name indices value loc => by
    rw [Statement.relocate, Expr.relocateAll_id indices, value.relocate_id, id]
  | .call function arguments loc => by
    rw [Statement.relocate, Expr.relocateAll_id arguments, id]

theorem Statement.relocateAll_id :
    ∀ statements : List Statement, Statement.relocateAll id statements = statements
  | [] => rfl
  | head :: tail => by rw [Statement.relocateAll, head.relocate_id, Statement.relocateAll_id tail]

end

end LineBasic
