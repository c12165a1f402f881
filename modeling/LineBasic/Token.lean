import LineBasic.Location
import LineBasic.Text.Quoted

/-!
# Tokens of a listing

A token has a kind, a literal text and the place where it starts. Symbols and keywords have
one spelling each; the literal of a remark or a data line is its payload, that of a string
is the text between its quotes.
-/

namespace LineBasic

/-- Operators and punctuation. -/
inductive Symbol where
  | plus
  | minus
  | asterisk
  | slash
  | lt
  | gt
  | eq
  | notEq
  | semicolon
  | comma
  | colon
  | lparen
  | rparen
  deriving DecidableEq, Repr

namespace Symbol

/-- How a symbol is written. -/
def spelling : Symbol → String
  | plus => "+"
  | minus => "-"
  | asterisk => "*"
  | slash => "/"
  | lt => "<"
  | gt => ">"
  | eq => "="
  | notEq => "<>"
  | semicolon => ";"
  | comma => ","
  | colon => ":"
  | lparen => "("
  | rparen => ")"

end Symbol

/-- Reserved words. -/
inductive Keyword where
  | len
  | asc
  | chr
  | dim
  | if_
  | then_
  | else_
  | on
  | goto
  | gosub
  | return_
  | for_
  | to_
  | step
  | next
  | data
  | rem
  | and
  | or
  deriving DecidableEq, Repr

namespace Keyword

/-- How a reserved word is written. Only this spelling, in capitals, is reserved. -/
def spelling : Keyword → String
  | len => "LEN"
  | asc => "ASC"
  | chr => "CHR$"
  | dim => "DIM"
  | if_ => "IF"
  | then_ => "THEN"
  | else_ => "ELSE"
  | on => "ON"
  | goto => "GOTO"
  | gosub => "GOSUB"
  | return_ => "RETURN"
  | for_ => "FOR"
  | to_ => "TO"
  | step => "STEP"
  | next => "NEXT"
  | data => "DATA"
  | rem => "REM"
  | and => "AND"
  | or => "OR"

/-- Every reserved word. -/
def all : List Keyword :=
  [len, asc, chr, dim, if_, then_, else_, on, goto, gosub, return_, for_, to_, step, next, data,
    rem, and, or]

/-- The reserved word with a given spelling. -/
def ofSpelling? (word : String) : Option Keyword :=
  all.find? (·.spelling == word)

end Keyword

/-- What a token is. -/
inductive Token.Kind where
  /-- A byte that starts no token, or a string that its line cuts short. -/
  | illegal
  /-- The end of the listing. -/
  | eof
  /-- A string between quotes. -/
  | str
  /-- A name. -/
  | ident
  /-- A number within a line. -/
  | num
  /-- A number that opens a line. -/
  | lineNo
  /-- A symbol. -/
  | sym (symbol : Symbol)
  /-- A reserved word. -/
  | word (keyword : Keyword)
  deriving DecidableEq, Repr

namespace Token.Kind

/-- How a kind is named in messages. -/
def text : Kind → String
  | illegal => "ILLEGAL"
  | eof => "EOF"
  | str => "STRING"
  | ident => "IDENT"
  | num => "NUM"
  | lineNo => "LINENO"
  | sym symbol => symbol.spelling
  | word keyword => keyword.spelling

/-- The kind of a word: a reserved word or a name. -/
def ofWord (word : String) : Kind :=
  match Keyword.ofSpelling? word with
  | some keyword => .word keyword
  | none => ident

/-- Whether the kind ends every statement and expression: a colon, a new line number or the
end of the listing. -/
def isTerminator : Kind → Bool
  | sym .colon => true
  | lineNo => true
  | eof => true
  | _ => false

end Token.Kind

/-- A token of a listing. -/
structure Token where
  /-- What the token is. -/
  kind : Token.Kind
  /-- Its text. -/
  literal : String
  /-- Where its first byte stands. -/
  loc : Location
  deriving DecidableEq, Repr

namespace Token

/-- The end of a listing at a given place. -/
def endAt (loc : Location) : Token := ⟨.eof, "", loc⟩

/-- A token shown as its kind and its quoted literal. -/
def text (token : Token) : String :=
  token.kind.text ++ " " ++ Quoted.encode token.literal

end Token

end LineBasic
