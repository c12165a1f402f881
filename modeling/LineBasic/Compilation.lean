import LineBasic.Listing
import LineBasic.Lowering.Program

/-!
# Compilation

From the bytes of a listing to C text. Each statement is written as soon as the parser has
found it; statements that were given up are missing from the text.
-/

namespace LineBasic

/-- The result of a compilation. -/
structure Compilation where
  /-- The parsed listing. -/
  listing : Listing
  /-- The C text. -/
  output : String
  /-- What is logged, in order. -/
  records : List Record

/-- Text with the statement of one more step written after it. -/
def Step.writeTo (style : Style) (written : String) (step : Step) : String :=
  match step.statement with
  | some statement => written ++ statement.toC style ++ "\n"
  | none => written

namespace Compilation

/-- Compiles what a source delivers. -/
def ofDelivery (style : Style) (delivery : Delivery) : Compilation :=
  let listing := Listing.ofDelivery delivery
  let body := listing.steps.foldl (Step.writeTo style) ""
  ⟨listing, style.wrap body, delivery.records ++ listing.records⟩

/-- The statements of the program. -/
def program (compilation : Compilation) : List Statement :=
  compilation.listing.program

/-- The diagnostics, in the order in which they arose. -/
def diagnostics (compilation : Compilation) : List Diagnostic :=
  compilation.listing.diagnostics

/-- Whether the listing has no diagnostics. -/
def isClean (compilation : Compilation) : Bool :=
  compilation.listing.isClean

end Compilation

/-- How the writing of a whole program is logged. -/
def loweredRecord (program : List Statement) : Record :=
  ⟨.debug, .lowering, "rendered " ++ toString program.length ++ " statement(s)"⟩

/-- Compiles a listing held in memory as bytes. -/
def compile (style : Style) (bytes : List UInt8) : Compilation :=
  .ofDelivery style (.ofBytes bytes)

end LineBasic
