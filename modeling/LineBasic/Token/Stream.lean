import LineBasic.Input
import LineBasic.Log
import LineBasic.Token.Lexeme

/-!
# Token streams

A stream holds the bytes not scanned yet and gives one token after another. At its end it
gives the end token for ever. A fault of the byte source is noticed once, as soon as at most
one delivered byte is left, because scanning looks one byte ahead.
-/

namespace LineBasic

/-- A listing that is being scanned. -/
structure Stream where
  /-- The bytes not scanned yet. -/
  unread : List UInt8
  /-- The place of the first of them. -/
  loc : Location
  /-- Nothing has been scanned, so the stream stands at the start of a line. -/
  fresh : Bool
  /-- Why the source broke, as long as that has not been noticed. -/
  fault : Option String
  deriving DecidableEq, Repr

/-- One step of a stream. -/
structure Scan where
  /-- The token. -/
  token : Token
  /-- The fault of the source, if it was noticed in this step. -/
  fault : Option String
  /-- The stream after the token. -/
  rest : Stream
  deriving DecidableEq, Repr

namespace Stream

/-- Whether scanning has looked beyond the last delivered byte. -/
def looksBeyond (stream : Stream) : Bool :=
  stream.unread.tail.isEmpty

/-- The fault that comes to notice now. -/
def noticed (stream : Stream) : Option String :=
  if stream.looksBeyond then stream.fault else none

/-- The stream once its fault has been looked for. -/
def settled (stream : Stream) : Stream :=
  if stream.looksBeyond then { stream with fault := none } else stream

/-- The stream of a delivery, before anything is looked at. -/
def unopened (delivery : Delivery) : Stream :=
  ⟨delivery.bytes, .start, true, delivery.fault⟩

/-- The stream of a delivery. -/
def ofDelivery (delivery : Delivery) : Stream :=
  (unopened delivery).settled

/-- The spaces before the next token. -/
def spaces (stream : Stream) : List UInt8 :=
  stream.unread.takeWhile Byte.isSpace

/-- The bytes from the next token on. -/
def ahead (stream : Stream) : List UInt8 :=
  stream.unread.dropWhile Byte.isSpace

/-- Whether the next token is the first of its line. -/
def opensLine (stream : Stream) : Bool :=
  stream.fresh || stream.spaces.any Byte.isLineBreak

/-- The next token and the stream after it. -/
def next (stream : Stream) : Scan :=
  let loc := stream.loc.after stream.spaces
  match Lexeme.first? stream.opensLine stream.ahead with
  | none =>
    let rest : Stream := ⟨[], loc, false, stream.fault⟩
    ⟨.endAt loc, rest.noticed, rest.settled⟩
  | some lexeme =>
    let rest : Stream := ⟨stream.ahead.drop lexeme.source.length, loc.after lexeme.source, false,
      stream.fault⟩
    ⟨⟨lexeme.kind, lexeme.literal, loc⟩, rest.noticed, rest.settled⟩

/-- At most `limit` steps before the one that meets the end, and that one. -/
def scansWithin : (limit : Nat) → Stream → List Scan
  | 0, stream => [stream.next]
  | limit + 1, stream =>
    let scan := stream.next
    if scan.token.kind = .eof then [scan] else scan :: scansWithin limit scan.rest

/-- All steps up to the one that meets the end. Every other step takes at least one byte. -/
def scans (stream : Stream) : List Scan :=
  stream.scansWithin stream.unread.length

/-- All tokens, the end token last. -/
def tokens (stream : Stream) : List Token :=
  stream.scans.map (·.token)

/-! ## Progress of a stream -/

@[simp]
theorem unread_settled (stream : Stream) : stream.settled.unread = stream.unread := by
  unfold settled
  split <;> rfl

theorem spaces_append_ahead (stream : Stream) : stream.spaces ++ stream.ahead = stream.unread :=
  List.takeWhile_append_dropWhile

/-- Every step but the one that meets the end takes at least one byte. -/
theorem length_unread_next_lt (stream : Stream) (h : stream.next.token.kind ≠ .eof) :
    stream.next.rest.unread.length < stream.unread.length := by
  have hle : stream.ahead.length ≤ stream.unread.length := by
    rw [← stream.spaces_append_ahead, List.length_append]
    omega
  unfold next at h ⊢
  dsimp only at h ⊢
  split at h
  · exact absurd rfl h
  next lexeme hlexeme =>
    -- the lexeme takes at least one byte of those ahead
    have hpos := List.length_pos_iff.2 (Lexeme.first?_source_ne_nil hlexeme)
    have hlen := (Lexeme.first?_isPrefix hlexeme).length_le
    simp only [unread_settled, List.length_drop]
    omega

/-- At the end, the scan of the end token is the only one left. -/
theorem scansWithin_of_eof {stream : Stream} (limit : Nat) (h : stream.next.token.kind = .eof) :
    stream.scansWithin limit = [stream.next] := by
  cases limit with
  | zero => rfl
  | succ limit => simp [scansWithin, h]

/-- The first scan comes before those of the rest. -/
theorem scansWithin_of_ne_eof {stream : Stream} (limit : Nat)
    (h : stream.next.token.kind ≠ .eof) :
    stream.scansWithin (limit + 1) = stream.next :: stream.next.rest.scansWithin limit := by
  simp [scansWithin, h]

/-- A bound that is large enough is never reached, so one step more changes nothing. -/
theorem scansWithin_succ (stream : Stream) {limit : Nat} (h : stream.unread.length ≤ limit) :
    stream.scansWithin (limit + 1) = stream.scansWithin limit := by
  induction limit generalizing stream with
  | zero =>
    by_cases hend : stream.next.token.kind = .eof
    · rw [scansWithin_of_eof _ hend, scansWithin_of_eof _ hend]
    · have hlt := stream.length_unread_next_lt hend
      omega
  | succ limit ih =>
    by_cases hend : stream.next.token.kind = .eof
    · rw [scansWithin_of_eof _ hend, scansWithin_of_eof _ hend]
    · have hlt := stream.length_unread_next_lt hend
      rw [scansWithin_of_ne_eof _ hend, scansWithin_of_ne_eof _ hend, ih _ (by omega)]

/-- More steps than there are bytes change nothing. -/
theorem scansWithin_eq_scans (stream : Stream) {limit : Nat} (h : stream.unread.length ≤ limit) :
    stream.scansWithin limit = stream.scans := by
  induction h with
  | refl => rfl
  | step hle ih => rw [scansWithin_succ _ hle, ih]

/-- The steps of a stream are its next step and, unless that meets the end, the steps of the
stream after it. -/
theorem scans_eq (stream : Stream) :
    stream.scans =
      if stream.next.token.kind = .eof then [stream.next]
      else stream.next :: stream.next.rest.scans := by
  split
  next hend => exact scansWithin_of_eof _ hend
  next hend =>
    have hlt := stream.length_unread_next_lt hend
    rw [← stream.scansWithin_eq_scans (Nat.le_succ _), scansWithin_of_ne_eof _ hend,
      scansWithin_eq_scans _ (by omega)]

end Stream

/-- How a fault of the source is logged. -/
def faultRecord (reason : String) : Record :=
  ⟨.warn, .scanner, "read error treated as end of input: " ++ reason⟩

/-- How a token is logged. -/
def Token.record (token : Token) : Record :=
  ⟨.trace, .scanner, "token " ++ token.text ++ " at " ++ token.loc.text⟩

/-- What a step logs: a fault, if it is noticed, and the token, unless it is the end. -/
def Scan.records (scan : Scan) : List Record :=
  (scan.fault.map faultRecord).toList ++
    if scan.token.kind = .eof then [] else [scan.token.record]

/-- What is logged before the first step: a fault that is noticed at once. -/
def Delivery.records (delivery : Delivery) : List Record :=
  ((Stream.unopened delivery).noticed.map faultRecord).toList

/-- The tokens of a listing held in memory, the end token last. -/
def tokenize (bytes : List UInt8) : List Token :=
  (Stream.ofDelivery (.ofBytes bytes)).tokens

end LineBasic
