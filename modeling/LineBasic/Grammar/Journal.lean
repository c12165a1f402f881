import LineBasic.Diagnostic
import LineBasic.Log

/-!
# Journal of a parse

What happens while a listing is parsed, in order. The diagnostics of a parse are those of
its recoveries, so the journal is the only record that a parse keeps.
-/

namespace LineBasic

/-- Something that happened in a parse. -/
inductive Event where
  /-- A statement was completed. -/
  | parsed (loc : Location)
  /-- A statement was given up. -/
  | recovered (diagnostic : Diagnostic)
  /-- An array was declared for the first time. -/
  | declared (name : String) (dimensions : Nat)
  /-- An array was declared again. -/
  | redeclared (name : String) (loc previous : Location)
  /-- A `NEXT` named another counter than that of the loop it closes. -/
  | mismatched (name : String) (loc : Location) (counter : String)
  deriving DecidableEq, Repr

namespace Event

/-- The diagnostic of a recovery. -/
def diagnostic? : Event → Option Diagnostic
  | recovered diagnostic => some diagnostic
  | _ => none

/-- How an event is logged. -/
def record : Event → Record
  | parsed loc => ⟨.debug, .parser, "parsed statement at " ++ loc.text⟩
  | recovered diagnostic =>
    ⟨.debug, .parser,
      "recovering from `" ++ diagnostic.message ++ "` at " ++ diagnostic.loc.text⟩
  | declared name dimensions =>
    ⟨.debug, .declarations,
      "declared array " ++ name ++ " with " ++ toString dimensions ++ " dimension(s)"⟩
  | redeclared name loc previous =>
    ⟨.warn, .declarations,
      name ++ " redeclared at " ++ loc.text ++ " (first declared at " ++ previous.text ++ ")"⟩
  | mismatched name loc counter =>
    ⟨.warn, .statements,
      "NEXT " ++ name ++ " at " ++ loc.text ++ " closes the loop over " ++ counter⟩

end Event

/-- An event, and how far the parse had come. -/
structure Entry where
  /-- The number of tokens, the current one included, that were left. -/
  left : Nat
  /-- What happened. -/
  event : Event
  deriving DecidableEq, Repr

end LineBasic
