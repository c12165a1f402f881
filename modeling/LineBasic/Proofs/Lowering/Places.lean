import LineBasic.Lowering.Program
import LineBasic.Proofs.Relocation

/-!
# Places are not in the C text

The C text of a program tells nothing about where its parts stand: at other places it stays the
same, whatever the change of places (`programToC_relocate`).

The proofs follow the trees and go through their lists by lemmas of their own, as `relocate` and
`toC` do.
-/

namespace LineBasic

variable (place : Location → Location)

mutual

/-- The C text of an expression does not depend on its places. -/
@[simp]
theorem Expr.toC_relocate : ∀ expression : Expr, (expression.relocate place).toC = expression.toC
  | .var name indices loc => by rw [relocate, toC, toC, listToC_relocateAll indices]
  | .int literal => rfl
  | .str text loc => rfl
  | .unary op operand loc => by rw [relocate, toC, toC, operand.toC_relocate]
  | .binary op left right loc => by
    rw [relocate, toC, toC, left.toC_relocate, right.toC_relocate]
  | .call function arguments loc => by rw [relocate, toC, toC, listToC_relocateAll arguments]

theorem Expr.listToC_relocateAll :
    ∀ expressions : List Expr,
      Expr.listToC (Expr.relocateAll place expressions) = Expr.listToC expressions
  | [] => rfl
  | head :: tail => by
    rw [relocateAll, listToC, listToC, head.toC_relocate, listToC_relocateAll tail]

end

theorem ArrayDecl.toC_relocate (array : ArrayDecl) : (array.relocate place).toC = array.toC := by
  simp [ArrayDecl.toC, ArrayDecl.relocate, IntLit.relocate, Function.comp_def]

namespace Style

variable (style : Style)

/-- The cases of an `ON` do not depend on where its targets stand. -/
theorem cases_relocate (kind : JumpKind) (first : Nat) (targets : List JumpTarget) :
    style.cases kind first (targets.map (·.relocate place)) = style.cases kind first targets := by
  induction targets generalizing first with
  | nil => rfl
  | cons target targets ih =>
    -- a target is written by its name alone
    have hjump : style.jump kind (target.relocate place) = style.jump kind target := rfl
    rw [List.map_cons, cases, cases, hjump, ih]

/-- The head of a loop does not depend on where its bounds stand. -/
theorem loopHead_relocate (counter : String) (first last step : Expr) :
    style.loopHead counter (first.relocate place) (last.relocate place) (step.relocate place) =
      style.loopHead counter first last step := by
  unfold loopHead
  rw [first.toC_relocate, last.toC_relocate, step.toC_relocate]

end Style

section Statements

variable (style : Style)

mutual

/-- An arm is the same wherever its statements stand. -/
theorem Branch.toC_relocate :
    ∀ (branch : Branch) (head : String),
      (branch.relocate place).toC style head = branch.toC style head
  | .goto target, head => rfl
  | .block statements, head => by
    rw [Branch.relocate, Branch.toC, Branch.toC, Statement.listToC_relocateAll statements]

theorem Branch.elseToC_relocate :
    ∀ (alternative : Option Branch) (opening : String),
      Branch.elseToC style opening (Branch.relocateElse place alternative) =
        Branch.elseToC style opening alternative
  | none, opening => rfl
  | some branch, opening => by
    rw [Branch.relocateElse, Branch.elseToC, Branch.elseToC, branch.toC_relocate]

/-- The C text of a statement does not depend on its places. -/
theorem Statement.toC_relocate :
    ∀ statement : Statement, (statement.relocate place).toC style = statement.toC style
  | .lineNumber name data loc => by cases data <;> rfl
  | .label name loc => rfl
  | .dim arrays loc => by
    have harrays : (arrays.map (·.relocate place)).map (·.toC) = arrays.map (·.toC) := by
      simp [ArrayDecl.toC_relocate]
    rw [Statement.relocate, Statement.toC, Statement.toC, harrays]
  | .cond condition consequence alternative loc => by
    have hconsequence := consequence.toC_relocate
    have halternative := Branch.elseToC_relocate alternative
    rw [Statement.relocate]
    cases consequence <;>
      rw [Branch.relocate, Statement.toC, Statement.toC, condition.toC_relocate, halternative,
        ← hconsequence, Branch.relocate]
  | .on value kind targets loc => by
    rw [Statement.relocate, Statement.toC, Statement.toC, Style.on, Style.on, value.toC_relocate,
      style.cases_relocate]
  | .goto target loc => rfl
  | .gosub target loc => rfl
  | .ret loc => rfl
  | .loop counter first last step body loc => by
    rw [Statement.relocate, Statement.toC, Statement.toC, style.loopHead_relocate,
      Statement.listToC_relocateAll body]
  | .assign name indices value loc => by
    rw [Statement.relocate, Statement.toC, Statement.toC, Expr.listToC_relocateAll,
      value.toC_relocate]
  | .call function arguments loc => by
    rw [Statement.relocate, Statement.toC, Statement.toC, Expr.listToC_relocateAll]

/-- The C text of a program does not depend on its places. -/
theorem Statement.listToC_relocateAll :
    ∀ statements : List Statement,
      Statement.listToC style (Statement.relocateAll place statements) =
        Statement.listToC style statements
  | [] => rfl
  | head :: tail => by
    rw [Statement.relocateAll, Statement.listToC, Statement.listToC, head.toC_relocate,
      Statement.listToC_relocateAll tail]

end

/-- The C text of a program does not depend on the places in it. -/
theorem programToC_relocate (program : List Statement) :
    programToC style (program.map (·.relocate place)) = programToC style program := by
  rw [programToC, programToC, ← Statement.relocateAll_eq_map, Statement.listToC_relocateAll]

end Statements

end LineBasic
