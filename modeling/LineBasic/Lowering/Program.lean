import LineBasic.Lowering.Statement

/-!
# C text of programs

The statements of a program, one after another on lines of their own, by themselves or
wrapped in a whole C program.
-/

namespace LineBasic

namespace Style

/-- What stands before the main function: the buffers for the ways back. -/
def preamble (style : Style) : String :=
  match style.returnSlot with
  | .shared => "#include <setjmp.h>\n\njmp_buf env;\n"
  | .stack =>
    "#include <setjmp.h>\n#include <stdlib.h>\n\njmp_buf _ret_stack[" ++ toString style.stackDepth
      ++ "];\nint _ret_sp = 0;\n"

/-- Complete lines, wrapped in a whole program if the style asks for one. -/
def wrap (style : Style) (body : String) : String :=
  if style.standalone then
    style.preamble ++ "\nint main(void)\n\x7b\n" ++ style.indented body
      ++ style.indented "return 0;\n" ++ "\x7d\n"
  else
    body

end Style

/-- The C text of a program. -/
def programToC (style : Style) (program : List Statement) : String :=
  style.wrap (CText.lines (Statement.listToC style program))

end LineBasic
