import LineBasic.Command.Arguments
import LineBasic.Command.Folder
import LineBasic.Command.Run
import LineBasic.Compilation
import LineBasic.Diagnostic
import LineBasic.Expr
import LineBasic.Grammar.Cursor
import LineBasic.Grammar.Expression
import LineBasic.Grammar.Journal
import LineBasic.Grammar.Parse
import LineBasic.Grammar.Program
import LineBasic.Grammar.Statement
import LineBasic.Input
import LineBasic.Listing
import LineBasic.Location
import LineBasic.Log
import LineBasic.Lowering.Expression
import LineBasic.Lowering.Program
import LineBasic.Lowering.Statement
import LineBasic.Lowering.Style
import LineBasic.Lowering.Text
import LineBasic.Main
import LineBasic.Proofs.BareCalls
import LineBasic.Proofs.BrokenSources
import LineBasic.Proofs.Calls
import LineBasic.Proofs.CommentBlocks
import LineBasic.Proofs.Declarations
import LineBasic.Proofs.Grammar.Contents
import LineBasic.Proofs.Grammar.Drift
import LineBasic.Proofs.Grammar.Faults
import LineBasic.Proofs.Grammar.Following
import LineBasic.Proofs.Grammar.Layout
import LineBasic.Proofs.Grammar.Ledger
import LineBasic.Proofs.Grammar.Levels
import LineBasic.Proofs.Grammar.Names
import LineBasic.Proofs.Grammar.Reading
import LineBasic.Proofs.Grammar.Rounds
import LineBasic.Proofs.Grammar.Run
import LineBasic.Proofs.Grammar.Seam
import LineBasic.Proofs.Grammar.Soundness
import LineBasic.Proofs.Leaves
import LineBasic.Proofs.LineEndings
import LineBasic.Proofs.LineIsolation
import LineBasic.Proofs.Loops
import LineBasic.Proofs.Lowering.Data
import LineBasic.Proofs.Lowering.Indentation
import LineBasic.Proofs.Lowering.Integers
import LineBasic.Proofs.Lowering.Labels
import LineBasic.Proofs.Lowering.Places
import LineBasic.Proofs.Lowering.ReadBack
import LineBasic.Proofs.Lowering.Rows
import LineBasic.Proofs.Nesting
import LineBasic.Proofs.NestingLimit
import LineBasic.Proofs.Relocation
import LineBasic.Proofs.Respelling
import LineBasic.Proofs.SameTokens
import LineBasic.Proofs.Separation
import LineBasic.Proofs.Sessions
import LineBasic.Proofs.Spelling.Lexical
import LineBasic.Proofs.Spelling.Parse
import LineBasic.Proofs.Spelling.Program.Block
import LineBasic.Proofs.Spelling.Program.Parse
import LineBasic.Proofs.Spelling.Program.Scan
import LineBasic.Proofs.Spelling.Program.Spellable
import LineBasic.Proofs.Spelling.Program.Text
import LineBasic.Proofs.Spelling.RoundTrip
import LineBasic.Proofs.Spelling.Scan
import LineBasic.Proofs.Spelling.Text
import LineBasic.Proofs.StatementIsolation
import LineBasic.Proofs.Streaming
import LineBasic.Proofs.Subscripts
import LineBasic.Proofs.Text.Utf8
import LineBasic.Proofs.Token.Lines
import LineBasic.Proofs.Token.Literals
import LineBasic.Proofs.Token.Numbers
import LineBasic.Proofs.Token.Openings
import LineBasic.Proofs.Token.Order
import LineBasic.Proofs.Token.Payloads
import LineBasic.Proofs.Token.Pieces
import LineBasic.Proofs.Token.Window
import LineBasic.Proofs.Token.WindowScan
import LineBasic.Session
import LineBasic.Statement
import LineBasic.Text.Quoted
import LineBasic.Text.Utf8
import LineBasic.Token
import LineBasic.Token.Lexeme
import LineBasic.Token.Stream
