/-!
# Pieces of C text

Labels, string literals, jumps and layout, as they occur in generated C.
-/

namespace LineBasic.CText

/-- The line that sets subroutines off from what stands before them. -/
def separator : String := "// -----------------------------------"

/-- The C label for a line number or a label. C labels start with no digit, so a line number
gets an underscore. -/
def label (name : String) : String :=
  match name.toList with
  | c :: _ => if c.isDigit then "_" ++ name else name
  | [] => name

/-- A jump to a label. -/
def goto (name : String) : String :=
  "goto " ++ label name ++ ";"

/-- A character inside a C string literal. -/
def escapeChar (c : Char) : List Char :=
  if c = '\\' then ['\\', '\\'] else if c = '"' then ['\\', '"'] else [c]

/-- A C string literal. -/
def quote (text : String) : String :=
  "\"" ++ String.ofList (text.toList.flatMap escapeChar) ++ "\""

/-- Whether a text is a quoted string as it stands: a quote at either end and none between. -/
def isQuoted (text : String) : Bool :=
  match text.toList with
  | '"' :: rest => rest.getLast? = some '"' && !rest.dropLast.contains '"'
  | _ => false

/-- Characters with `pad` before every line that has any, where `atStart` says whether a line
starts here. -/
def indentChars (pad : List Char) : (atStart : Bool) → List Char → List Char
  | _, [] => []
  | atStart, c :: rest =>
    if c = '\n' then '\n' :: indentChars pad true rest
    else if atStart then pad ++ c :: indentChars pad false rest
    else c :: indentChars pad false rest

/-- Text with every line that is not empty moved to the right. -/
def indent (width : Nat) (text : String) : String :=
  String.ofList (indentChars (List.replicate width ' ') true text.toList)

/-- Texts on lines of their own. -/
def lines (texts : List String) : String :=
  String.join (texts.map (· ++ "\n"))

/-- A head and, after it, complete lines in braces. -/
def braced (head body : String) : String :=
  head ++ " \x7b\n" ++ body ++ "\x7d"

end LineBasic.CText
