/-!
# Styles of generated C

The choices that a user has about the C text of a program.
-/

namespace LineBasic

/-- Where a subroutine finds the way back to its caller. -/
inductive ReturnSlot where
  /-- In one buffer that all calls share, so calls cannot nest. -/
  | shared
  /-- On a stack of buffers. -/
  | stack
  deriving DecidableEq, Repr

/-- When a counted loop stops. -/
inductive LoopBound where
  /-- When the counter equals the last value. -/
  | exact
  /-- When the counter has passed the last value. -/
  | relational
  deriving DecidableEq, Repr

/-- The style of generated C. -/
structure Style where
  /-- Where subroutines find the way back. -/
  returnSlot : ReturnSlot
  /-- When loops stop. -/
  loopBound : LoopBound
  /-- Whether the statements are wrapped in a whole program. -/
  standalone : Bool
  /-- The number of spaces for each level of indentation. -/
  indent : Nat
  /-- The number of buffers on the stack. -/
  stackDepth : Nat
  deriving DecidableEq, Repr

/-- The style that is used if the user chooses nothing. -/
def Style.standard : Style := ⟨.shared, .exact, false, 4, 64⟩

end LineBasic
