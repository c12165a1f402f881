import LineBasic.Expr
import LineBasic.Lowering.Text

/-!
# C text of expressions

Operations are put in parentheses throughout, so the text does not depend on how strongly C
operators bind. Integers keep their spelling, names and functions their name.
-/

namespace LineBasic

/-- The C operator for an operator between operands. -/
def BinaryOp.toC : BinaryOp → String
  | add => "+"
  | sub => "-"
  | mul => "*"
  | div => "/"
  | eq => "=="
  | ne => "!="
  | lt => "<"
  | gt => ">"
  | and => "&&"
  | or => "||"

/-- The C text of an operator applied to the text of its operand. -/
def UnaryOp.toC (op : UnaryOp) (operand : String) : String :=
  match op with
  | neg => "(-" ++ operand ++ ")"
  | len => "LEN(" ++ operand ++ ")"
  | asc => "ASC(" ++ operand ++ ")"
  | chr => "CHR$(" ++ operand ++ ")"

namespace CText

/-- An element of an array, from the texts of its subscripts. -/
def element (name : String) (indices : List String) : String :=
  name ++ String.join (indices.map fun index => "[" ++ index ++ "]")

/-- A call, from the texts of its arguments. -/
def call (function : String) (arguments : List String) : String :=
  function ++ "(" ++ String.intercalate ", " arguments ++ ")"

end CText

namespace Expr

mutual

/-- The C text of an expression. -/
def toC : Expr → String
  | var name indices _ => CText.element name (listToC indices)
  | int literal => literal.literal
  | str text _ => CText.quote text
  | unary op operand _ => op.toC operand.toC
  | binary op left right _ => "(" ++ left.toC ++ " " ++ op.toC ++ " " ++ right.toC ++ ")"
  | call function arguments _ => CText.call function (listToC arguments)

/-- The C texts of some expressions. -/
def listToC : List Expr → List String
  | [] => []
  | head :: tail => head.toC :: listToC tail

end

end Expr

end LineBasic
