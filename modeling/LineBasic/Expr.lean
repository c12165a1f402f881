import LineBasic.Location

/-!
# Expressions

The tree of an expression: variables with their subscripts, literals, operators and calls.
Every node keeps the place of the token that it is named after: the operator of an operation,
the name of a variable or a call.
-/

namespace LineBasic

/-- Operators before their operand. -/
inductive UnaryOp where
  /-- The opposite of a number. -/
  | neg
  /-- The length of a string. -/
  | len
  /-- The code of the first character of a string. -/
  | asc
  /-- The character with a code. -/
  | chr
  deriving DecidableEq, Repr

/-- Operators between their operands. -/
inductive BinaryOp where
  | add
  | sub
  | mul
  | div
  | eq
  | ne
  | lt
  | gt
  | and
  | or
  deriving DecidableEq, Repr

/-- An integer as written. -/
structure IntLit where
  /-- Its value. -/
  value : Int
  /-- Its spelling. -/
  literal : String
  /-- Where it stands. -/
  loc : Location
  deriving DecidableEq, Repr

/-- Expressions. -/
inductive Expr where
  /-- A variable, or an element of an array. -/
  | var (name : String) (indices : List Expr) (loc : Location)
  /-- An integer. -/
  | int (literal : IntLit)
  /-- A string. -/
  | str (text : String) (loc : Location)
  /-- An operator before its operand. -/
  | unary (op : UnaryOp) (operand : Expr) (loc : Location)
  /-- An operator between its operands. -/
  | binary (op : BinaryOp) (left right : Expr) (loc : Location)
  /-- A function applied to arguments. -/
  | call (function : String) (arguments : List Expr) (loc : Location)
  deriving Repr

namespace Expr

/-- Where an expression is said to stand. -/
def loc : Expr → Location
  | var _ _ loc => loc
  | int literal => literal.loc
  | str _ loc => loc
  | unary _ _ loc => loc
  | binary _ _ _ loc => loc
  | call _ _ loc => loc

end Expr

end LineBasic
