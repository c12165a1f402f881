import LineBasic.Lowering.Expression
import LineBasic.Lowering.Style
import LineBasic.Statement

/-!
# C text of statements

Every statement becomes one or more complete C lines, without the line feed after the last.
Line numbers and labels become C labels, a call of a subroutine saves the way back with
`setjmp`, and the way back is a `longjmp`.
-/

namespace LineBasic

/-- The C text of the data of a line: a variable with the payload as its value. A payload
that is a quoted string stands as it is. -/
def DataItem.toC (data : DataItem) : String :=
  let value := if CText.isQuoted data.value then data.value else CText.quote data.value
  "char *" ++ CText.label data.name ++ " = " ++ value ++ ";"

/-- The C text of an array in a declaration. -/
def ArrayDecl.toC (decl : ArrayDecl) : String :=
  CText.element decl.name (decl.sizes.map (·.literal))

/-- The C text of a jump to a target. -/
def JumpTarget.toC (target : JumpTarget) : String :=
  CText.goto target.name

namespace Style

/-- Text moved one level to the right. -/
def indented (style : Style) (text : String) : String :=
  CText.indent style.indent text

/-- The call of a subroutine. The stack of buffers is checked before it grows. -/
def gosub (style : Style) (target : JumpTarget) : String :=
  let (guard, slot) :=
    match style.returnSlot with
    | .shared => ("", "env")
    | .stack =>
      ("if (_ret_sp >= " ++ toString style.stackDepth ++ ") abort();\n", "_ret_stack[_ret_sp++]")
  guard ++ CText.braced ("if (setjmp(" ++ slot ++ ") == 0)") (style.indented (target.toC ++ "\n"))
    ++ "\n// return from longjmp()"

/-- The way back from a subroutine. -/
def ret (style : Style) : String :=
  let jump :=
    match style.returnSlot with
    | .shared => "longjmp(env, 1);"
    | .stack => "if (_ret_sp == 0) abort();\nlongjmp(_ret_stack[--_ret_sp], 1);"
  jump ++ "\n" ++ CText.separator

/-- The jump that `ON` makes to one of its targets. -/
def jump (style : Style) (kind : JumpKind) (target : JumpTarget) : String :=
  match kind with
  | .goto => target.toC
  | .gosub => style.gosub target

/-- The cases of an `ON`, numbered from `first`. -/
def cases (style : Style) (kind : JumpKind) : (first : Nat) → List JumpTarget → String
  | _, [] => ""
  | first, target :: targets =>
    "case " ++ toString first ++ ":\n" ++ style.indented (style.jump kind target ++ "\nbreak;\n")
      ++ cases style kind (first + 1) targets

/-- A selection of one of several jumps. -/
def on (style : Style) (value : Expr) (kind : JumpKind) (targets : List JumpTarget) : String :=
  CText.braced ("switch (" ++ value.toC ++ ")")
    (style.cases kind 1 targets ++ "default:\n" ++ style.indented "// nothing to do\nbreak;\n")

/-- The condition under which a loop goes on, from the texts of its last value and step. -/
def loopCondition (style : Style) (counter last step : String) : String :=
  match style.loopBound with
  | .exact => counter ++ " != " ++ last
  | .relational =>
    step ++ " >= 0 ? " ++ counter ++ " <= " ++ last ++ " : " ++ counter ++ " >= " ++ last

/-- The head of a loop. -/
def loopHead (style : Style) (counter : String) (first last step : Expr) : String :=
  "for (int " ++ counter ++ " = " ++ first.toC ++ "; "
    ++ style.loopCondition counter last.toC step.toC ++ "; " ++ counter ++ " += " ++ step.toC ++ ")"

end Style

mutual

/-- The C text of an arm after the text before it. -/
def Branch.toC (style : Style) (head : String) : Branch → String
  | .goto target => head ++ " " ++ target.toC
  | .block statements =>
    CText.braced head (style.indented (CText.lines (Statement.listToC style statements)))

/-- The C text of a second arm, if there is one. `opening` is what stands between it and the
first arm: a jump is a complete statement on a line of its own, a block is not. -/
def Branch.elseToC (style : Style) (opening : String) : Option Branch → String
  | none => ""
  | some branch => branch.toC style (opening ++ "else")

/-- The C text of a statement. -/
def Statement.toC (style : Style) : Statement → String
  | .lineNumber name none _ => CText.label name ++ ":;"
  | .lineNumber _ (some data) _ => data.toC
  | .label name _ => "\n" ++ CText.separator ++ "\n" ++ CText.label name ++ ":;"
  | .dim arrays _ => "int " ++ String.intercalate ", " (arrays.map (·.toC)) ++ ";"
  | .cond condition consequence alternative _ =>
    let opening :=
      match consequence with
      | .goto _ => "\n"
      | .block _ => " "
    consequence.toC style ("if (" ++ condition.toC ++ ")")
      ++ Branch.elseToC style opening alternative
  | .on value kind targets _ => style.on value kind targets
  | .goto target _ => target.toC
  | .gosub target _ => style.gosub target
  | .ret _ => style.ret
  | .loop counter first last step body _ =>
    CText.braced (style.loopHead counter first last step)
      (style.indented (CText.lines (Statement.listToC style body)))
  | .assign name indices value _ =>
    CText.element name (Expr.listToC indices) ++ " = " ++ value.toC ++ ";"
  | .call function arguments _ => CText.call function (Expr.listToC arguments) ++ ";"

/-- The C texts of some statements. -/
def Statement.listToC (style : Style) : List Statement → List String
  | [] => []
  | head :: tail => head.toC style :: Statement.listToC style tail

end

end LineBasic
