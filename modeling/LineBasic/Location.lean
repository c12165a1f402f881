/-!
# Source locations

A place in a listing is a line and a column, both counted from one. Columns count bytes,
and only a line feed ends a line, so a carriage return is one more column.
-/

namespace LineBasic

/-- A place in a listing. -/
structure Location where
  /-- The line, counted from one. -/
  line : Nat
  /-- The byte within the line, counted from one. -/
  column : Nat
  deriving DecidableEq, Repr

namespace Location

/-- The first byte of a listing. -/
def start : Location := ⟨1, 1⟩

/-- The place after one more byte. -/
def next (loc : Location) (b : UInt8) : Location :=
  if b = 0x0A then ⟨loc.line + 1, 1⟩ else ⟨loc.line, loc.column + 1⟩

/-- The place after some bytes. -/
def after (loc : Location) (bytes : List UInt8) : Location :=
  bytes.foldl next loc

/-- The usual spelling, line and column with a colon between. -/
def text (loc : Location) : String :=
  toString loc.line ++ ":" ++ toString loc.column

@[simp]
theorem after_nil (loc : Location) : loc.after [] = loc := rfl

@[simp]
theorem after_cons (loc : Location) (b : UInt8) (bytes : List UInt8) :
    loc.after (b :: bytes) = (loc.next b).after bytes := rfl

@[simp]
theorem after_append (loc : Location) (left right : List UInt8) :
    loc.after (left ++ right) = (loc.after left).after right :=
  List.foldl_append

end Location

end LineBasic
