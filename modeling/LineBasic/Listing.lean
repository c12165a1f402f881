import LineBasic.Grammar.Program
import LineBasic.Token.Stream

/-!
# Parsed listings

A listing with all that scanning and parsing find in it: the tokens, the program, the
diagnostics and the log of both, in the order in which things happen. The parser asks for a
token when it moves, one ahead of the current one, so the log shows each token just before
what the parser makes of those before it.
-/

namespace LineBasic

/-- The cursor on the first of some tokens, of which the last is the end token. -/
def Cursor.ofTokens (tokens : List Token) (arrays : List (String × Location)) : Cursor :=
  .start tokens.dropLast (tokens.getLastD (.endAt .start)).loc arrays

/-- A parsed listing. -/
structure Listing where
  /-- The steps of the scan, the end token last. -/
  scans : List Scan
  /-- The steps of the parse. -/
  steps : List Step
  /-- Where the parse ended. -/
  final : Cursor

namespace Listing

/-- The listing that a stream holds. -/
def ofStream (stream : Stream) : Listing :=
  let scans := stream.scans
  let (steps, final) := Grammar.steps (.ofTokens (scans.map (·.token)) [])
  ⟨scans, steps, final⟩

/-- The listing that a source delivers. -/
def ofDelivery (delivery : Delivery) : Listing :=
  ofStream (.ofDelivery delivery)

/-- The statements of the program. -/
def program (listing : Listing) : List Statement :=
  listing.steps.filterMap (·.statement)

/-- The diagnostics, in the order in which they arose. -/
def diagnostics (listing : Listing) : List Diagnostic :=
  listing.final.diagnostics

/-- Whether nothing is wrong with the listing. -/
def isClean (listing : Listing) : Bool :=
  listing.diagnostics.isEmpty

/-- The log of some scans and of what the parser makes of them. When an event finds `left`
tokens left, the current one and the one after it have been scanned, and so all scans but
`left - 1` of them, the one of the end token included, lie before it. -/
def weave : List Scan → List Entry → List Record
  | scans, [] => scans.flatMap (·.records)
  | scans, entry :: entries =>
    let due := scans.length - (entry.left - 1)
    (scans.take due).flatMap (·.records) ++
      entry.event.record :: weave (scans.drop due) entries

/-- What is logged while the listing is scanned and parsed. -/
def records (listing : Listing) : List Record :=
  weave listing.scans listing.final.journal.reverse

end Listing

/-- The listing held in memory as bytes. -/
def parse (bytes : List UInt8) : Listing :=
  .ofDelivery (.ofBytes bytes)

end LineBasic
