import LineBasic.Expr

/-!
# Statements

The tree of a program. A line number is a statement of its own, so a program is a flat list
in which only the arms of `IF` and the body of `FOR` nest.
-/

namespace LineBasic

/-- The label that a jump names: a line number or a named label. -/
structure JumpTarget where
  /-- The label. -/
  name : String
  /-- Where the jump names it. -/
  loc : Location
  deriving DecidableEq, Repr

/-- The data of a line. -/
structure DataItem where
  /-- The line that holds the data. -/
  name : String
  /-- The payload, as written. -/
  value : String
  /-- Where it stands. -/
  loc : Location
  deriving DecidableEq, Repr

/-- One array of a declaration. -/
structure ArrayDecl where
  /-- The name of the array. -/
  name : String
  /-- Its size in each dimension. -/
  sizes : List IntLit
  /-- Where it is declared. -/
  loc : Location
  deriving DecidableEq, Repr

/-- The two kinds of jump that `ON` selects from. -/
inductive JumpKind where
  | goto
  | gosub
  deriving DecidableEq, Repr

mutual

/-- An arm of an `IF`. -/
inductive Branch where
  /-- A bare label, to jump to. -/
  | goto (target : JumpTarget)
  /-- Statements to run. -/
  | block (statements : List Statement)

/-- Statements. -/
inductive Statement where
  /-- The start of a numbered line, with the data of the line if it holds any. -/
  | lineNumber (name : String) (data : Option DataItem) (loc : Location)
  /-- A named label. -/
  | label (name : String) (loc : Location)
  /-- A declaration of arrays. -/
  | dim (arrays : List ArrayDecl) (loc : Location)
  /-- A choice between two arms, of which the second may be missing. -/
  | cond (condition : Expr) (consequence : Branch) (alternative : Option Branch) (loc : Location)
  /-- A jump to one of several labels, selected by a number. -/
  | on (value : Expr) (kind : JumpKind) (targets : List JumpTarget) (loc : Location)
  /-- A jump. -/
  | goto (target : JumpTarget) (loc : Location)
  /-- A jump to a subroutine. -/
  | gosub (target : JumpTarget) (loc : Location)
  /-- The way back from a subroutine. -/
  | ret (loc : Location)
  /-- A counted loop. -/
  | loop (counter : String) (first last step : Expr) (body : List Statement) (loc : Location)
  /-- An assignment to a variable or to an element of an array. -/
  | assign (name : String) (indices : List Expr) (value : Expr) (loc : Location)
  /-- A call of a function that nothing in the listing defines. -/
  | call (function : String) (arguments : List Expr) (loc : Location)

end

namespace Statement

/-- Where a statement is said to stand. -/
def loc : Statement → Location
  | lineNumber _ _ loc => loc
  | label _ loc => loc
  | dim _ loc => loc
  | cond _ _ _ loc => loc
  | on _ _ _ loc => loc
  | goto _ loc => loc
  | gosub _ loc => loc
  | ret loc => loc
  | loop _ _ _ _ _ loc => loc
  | assign _ _ _ loc => loc
  | call _ _ loc => loc

end Statement

end LineBasic
