import LineBasic.Proofs.Token.Window

/-!
# Tokens read byte by byte

A window reads a token as it goes: each byte is examined once and then left behind, and what ends
the token is under examination when it has been read (`Window.next`). What is read is the first
lexeme of the bytes in front (`found?_eq`), and so one token read by a window is one step of the
stream in front of it (`next_eq`).
-/

namespace LineBasic

/-- A token without its place, and the window behind it. -/
structure Window.Found where
  /-- What the token is. -/
  kind : Token.Kind
  /-- Its text. -/
  literal : String
  /-- The window behind it. -/
  rest : Window

namespace Window

/-! ## Reading -/

/-- The bytes up to the first that is not accepted, and the window on that one. -/
def readWhile (accept : UInt8 → Bool) (window : Window) : List UInt8 × Window :=
  match _hcurrent : window.current with
  | none => ([], window)
  | some b =>
    if accept b then
      let (bytes, rest) := readWhile accept window.advance
      (b :: bytes, rest)
    else
      ([], window)
termination_by window.pending.length
decreasing_by
  rw [window.pending_eq, _hcurrent]
  exact Nat.lt_succ_self _

/-- The payload of a remark or of data. The blanks in front of it are dropped. -/
def payload (kind : Token.Kind) (window : Window) : Found :=
  let (_, window) := window.readWhile Byte.isBlank
  let (text, window) := window.readWhile Byte.isPayload
  ⟨kind, Utf8.decodeLossy text, window⟩

/-- A string, with its opening quote under examination. -/
def string (window : Window) : Found :=
  let (text, window) := window.advance.readWhile Byte.isString
  if window.current = some 0x22 then ⟨.str, Utf8.decodeLossy text, window.advance⟩
  else ⟨.illegal, "\"" ++ Utf8.decodeLossy text, window⟩

/-- The bytes of a word. -/
def wordBytes (window : Window) : List UInt8 × Window :=
  let (letters, window) := window.readWhile Byte.isWord
  if window.current = some 0x24 then (letters ++ [0x24], window.advance) else (letters, window)

/-- A name or a reserved word, with its payload if it takes one. -/
def word (window : Window) : Found :=
  let (spelled, window) := window.wordBytes
  let literal := Utf8.decodeLossy spelled
  match Token.Kind.ofWord literal with
  | .word .data => window.payload (.word .data)
  | .word .rem => window.payload (.word .rem)
  | kind => ⟨kind, literal, window⟩

/-- The bytes of a number within a line. -/
def numberBytes (window : Window) : List UInt8 × Window :=
  let (digits, window) := window.readWhile Byte.isDigit
  if window.current = some 0x2E then
    let (more, window) := window.advance.readWhile Byte.isDigit
    (digits ++ 0x2E :: more, window)
  else
    (digits, window)

/-- A number. -/
def number (opensLine : Bool) (window : Window) : Found :=
  if opensLine then
    let (digits, window) := window.readWhile Byte.isDigit
    ⟨.lineNo, Utf8.decodeLossy digits, window⟩
  else
    let (digits, window) := window.numberBytes
    ⟨.num, Utf8.decodeLossy digits, window⟩

/-- A token of the one byte under examination. -/
def single (b : UInt8) (window : Window) : Found :=
  match Symbol.ofByte? b with
  | some symbol => ⟨.sym symbol, symbol.spelling, window.advance⟩
  | none => ⟨.illegal, String.singleton (Char.ofUInt8 b), window.advance⟩

/-- The token that starts with the byte under examination, if there is one. -/
def found? (opensLine : Bool) (window : Window) : Option Found :=
  match window.current with
  | none => none
  | some b =>
    if b = 0x22 then some window.string
    else if b = 0x27 then some (window.advance.payload (.word .rem))
    else if b = 0x3C ∧ window.ahead = some 0x3E then
      some ⟨.sym .notEq, "<>", window.advance.advance⟩
    else if Byte.isLetter b then some window.word
    else if Byte.isDigit b then some (window.number opensLine)
    else some (window.single b)

/-- The window once something has been scanned. -/
def scanned (window : Window) : Window :=
  { window with fresh := false }

/-- The next token and the window behind it. -/
def next (window : Window) : Token × Window :=
  let (spaces, start) := window.scanned.readWhile Byte.isSpace
  let opensLine := window.fresh || spaces.any Byte.isLineBreak
  match start.found? opensLine with
  | none => (.endAt start.loc, start)
  | some found => (⟨found.kind, found.literal, start.loc⟩, found.rest)

/-- The window stands behind a step of the stream that the earlier window was in front of. -/
structure StandsBehind (window earlier : Window) (scan : Scan) : Prop where
  ready : window.Ready
  stream : window.stream = scan.rest
  faults : window.faults = earlier.faults ++ scan.fault.toList
  unasked : window.delivery.unasked = earlier.delivery.unasked

/-! ## What is read -/

theorem take_length_takeWhile {α : Type} (p : α → Bool) (l : List α) :
    l.take (l.takeWhile p).length = l.takeWhile p :=
  (List.prefix_iff_eq_take.1 (List.takeWhile_prefix p)).symm

theorem drop_length_takeWhile {α : Type} (p : α → Bool) (l : List α) :
    l.drop (l.takeWhile p).length = l.dropWhile p := by
  conv => lhs; arg 2; rw [← List.takeWhile_append_dropWhile (p := p) (l := l)]
  exact List.drop_left

/-- The lexeme as it is found by a window in front of it. -/
def foundAt (window : Window) (lexeme : Lexeme) : Found :=
  ⟨lexeme.kind, lexeme.literal, window.skip lexeme.source.length⟩

/-- A lexeme of one byte is found at the current one. -/
theorem single_eq (window : Window) (b : UInt8) :
    window.single b = window.foundAt (Lexeme.single b) := by
  unfold single Lexeme.single
  cases Symbol.ofByte? b <;> rfl

namespace Ready

variable {window : Window} (h : window.Ready)

include h

/-- Byte by byte, the window reads the longest run that is accepted. -/
theorem readWhile_eq (accept : UInt8 → Bool) :
    window.readWhile accept = (window.pending.takeWhile accept,
      window.skip (window.pending.takeWhile accept).length) := by
  -- on how many bytes are left: `readWhile` itself goes from window to window
  generalize hlength : window.pending.length = length
  induction length generalizing window with
  | zero =>
    have hnil := List.length_eq_zero_iff.1 hlength
    have hcurrent : window.current = none := by rw [h.current_eq, hnil]; rfl
    rw [readWhile, hnil]
    split
    next => rfl
    next b hb => rw [hcurrent] at hb; cases hb
  | succ length ih =>
    obtain ⟨b, rest, hpending⟩ := List.exists_cons_of_length_eq_add_one hlength
    have hcurrent : window.current = some b := by rw [h.current_eq, hpending]; rfl
    have hrest : window.advance.pending = rest := by rw [h.pending_advance, hpending]; rfl
    rw [readWhile]
    split
    next hnone => rw [hcurrent] at hnone; cases hnone
    next c hc =>
      obtain rfl : b = c := Option.some.inj (hcurrent.symm.trans hc)
      rw [hpending, List.takeWhile_cons]
      cases accept b with
      | true =>
        rw [hpending, List.length_cons, Nat.add_right_cancel_iff] at hlength
        rw [if_pos rfl, ih h.advance (by rw [hrest, hlength]), hrest]
        rfl
      | false => rfl

/-- Reading some bytes further on. -/
theorem readWhile_skip {count : Nat} {front : List UInt8}
    (hfront : window.pending.drop count = front) (accept : UInt8 → Bool) :
    (window.skip count).readWhile accept =
        (front.takeWhile accept, window.skip (count + (front.takeWhile accept).length)) ∧
      window.pending.drop (count + (front.takeWhile accept).length) = front.dropWhile accept := by
  subst hfront
  constructor
  · rw [(h.skip count).readWhile_eq, h.pending_skip, skip_skip]
  · rw [← List.drop_drop, drop_length_takeWhile]

/-- The window finds the payload behind its opening. -/
theorem payload_eq (kind : Token.Kind) (opening : List UInt8) :
    (window.skip opening.length).payload kind =
      window.foundAt
        (Lexeme.withPayload kind opening (window.pending.drop opening.length)) := by
  obtain ⟨hblanks, hbehind⟩ :=
    h.readWhile_skip (rfl : _ = window.pending.drop opening.length) Byte.isBlank
  obtain ⟨htext, -⟩ := h.readWhile_skip hbehind Byte.isPayload
  simp only [payload, hblanks, htext, foundAt, Lexeme.withPayload, List.length_append]

/-- The window finds the string that opens with the current quote. -/
theorem string_eq {rest : List UInt8} (hpending : window.pending = 0x22 :: rest) :
    window.string = window.foundAt (Lexeme.string rest) := by
  have hrest : window.pending.drop 1 = rest := by simp [hpending]
  obtain ⟨htext, hbehind⟩ := h.readWhile_skip hrest Byte.isString
  rw [skip_one] at htext
  simp only [string, htext, h.current_skip, hbehind, Lexeme.string]
  cases hclose : rest.dropWhile Byte.isString with
  | nil => simp [foundAt, Nat.add_comm]
  | cons b tail =>
    by_cases hb : b = 0x22
    · subst hb
      simp [foundAt, ← skip_one, skip_skip, Nat.add_comm]
    · simp [foundAt, hb, Nat.add_comm]

/-- The window reads the bytes of a word and stands behind them. -/
theorem wordBytes_eq :
    window.wordBytes =
      (Lexeme.wordBytes window.pending, window.skip (Lexeme.wordBytes window.pending).length) := by
  simp only [wordBytes, h.readWhile_eq, h.current_skip, drop_length_takeWhile, Lexeme.wordBytes]
  cases window.pending.dropWhile Byte.isWord with
  | nil => rfl
  | cons b tail =>
    by_cases hb : b = 0x24
    · subst hb
      simp [← skip_one, skip_skip]
    · simp [hb]

/-- The window finds the word at the front of the pending bytes. -/
theorem word_eq : window.word = window.foundAt (Lexeme.word window.pending) := by
  have hdata := h.payload_eq (.word .data) (Lexeme.wordBytes window.pending)
  have hrem := h.payload_eq (.word .rem) (Lexeme.wordBytes window.pending)
  simp only [word, h.wordBytes_eq, hdata, hrem, Lexeme.word]
  -- one of the words with a payload, another reserved word or a name
  generalize Token.Kind.ofWord (Utf8.decodeLossy (Lexeme.wordBytes window.pending)) = kind
  cases kind with
  | word keyword => cases keyword <;> rfl
  | _ => rfl

/-- The window reads the bytes of a number and stands behind them. -/
theorem numberBytes_eq :
    window.numberBytes = (Lexeme.numberBytes window.pending,
      window.skip (Lexeme.numberBytes window.pending).length) := by
  obtain ⟨hdigits, hbehind⟩ := h.readWhile_skip List.drop_zero Byte.isDigit
  rw [Nat.zero_add] at hdigits hbehind
  simp only [numberBytes, h.readWhile_eq, h.current_skip, hbehind, Lexeme.numberBytes]
  cases hpoint : window.pending.dropWhile Byte.isDigit with
  | nil => rfl
  | cons b tail =>
    by_cases hb : b = 0x2E
    · subst hb
      -- the digits behind the point are read from one byte further on
      have htail :
          window.pending.drop ((window.pending.takeWhile Byte.isDigit).length + 1) = tail := by
        rw [← List.drop_drop, hbehind, hpoint]
        rfl
      obtain ⟨hmore, -⟩ := h.readWhile_skip htail Byte.isDigit
      simp [← skip_one, skip_skip, hmore, Nat.add_assoc, Nat.add_comm 1]
    · simp [hb]

/-- The window finds the number at the front of the pending bytes. -/
theorem number_eq (opensLine : Bool) :
    window.number opensLine = window.foundAt (Lexeme.number opensLine window.pending) := by
  simp only [number, h.readWhile_eq, h.numberBytes_eq, Lexeme.number]
  cases opensLine <;> rfl

/-- What a window reads is the first lexeme of the bytes in front of it. -/
theorem found?_eq (opensLine : Bool) :
    window.found? opensLine = (Lexeme.first? opensLine window.pending).map window.foundAt := by
  cases hpending : window.pending with
  | nil =>
    rw [found?, h.current_eq, hpending]
    rfl
  | cons b rest =>
    have hcurrent : window.current = some b := by rw [h.current_eq, hpending]; rfl
    have hahead : window.ahead = rest.head? := by rw [h.ahead_eq, hpending]; rfl
    rw [found?, hcurrent]
    dsimp only
    -- the bytes a reader is chosen by first; behind them both take the first kind that matches
    by_cases hquote : b = 0x22
    · subst hquote
      rw [if_pos rfl, h.string_eq hpending]
      rfl
    by_cases hremark : b = 0x27
    · subst hremark
      have hpayload := h.payload_eq (.word .rem) [0x27]
      rw [hpending, List.length_singleton, skip_one] at hpayload
      rw [if_neg (by decide), if_pos rfl, hpayload]
      rfl
    rw [if_neg hquote, if_neg hremark]
    by_cases hpair : b = 0x3C ∧ window.ahead = some 0x3E
    · rw [if_pos hpair]
      obtain ⟨rfl, hgreater⟩ := hpair
      obtain ⟨tail, rfl⟩ := List.head?_eq_some_iff.1 (hahead.symm.trans hgreater)
      rfl
    · rw [if_neg hpair, h.word_eq, h.number_eq, single_eq, hpending]
      rw [hahead] at hpair
      rw [Lexeme.first?_cons opensLine hquote hremark hpair]
      split
      next => rfl
      next =>
        split
        next => rfl
        next => rfl

theorem scanned : window.scanned.Ready where
  ahead_eq_none := h.ahead_eq_none
  drained_eq_true := h.drained_eq_true

/-- One token read by a window is one step of the stream in front of it, and the window stands on
what is left. -/
theorem next_eq :
    window.next.1 = window.stream.next.token ∧
      window.next.2.StandsBehind window window.stream.next := by
  have hbehind (count : Nat) (scan : Scan)
      (hnoticed : scan.fault = (window.scanned.stream.skipped count).noticed)
      (hrest : scan.rest = (window.scanned.stream.skipped count).settled) :
      (window.scanned.skip count).StandsBehind window scan := by
    obtain ⟨hstream, hfaults⟩ := h.scanned.stream_skip count
    rw [← hrest] at hstream
    rw [← hnoticed] at hfaults
    exact ⟨h.scanned.skip count, hstream, hfaults, unasked_skip count window.scanned⟩
  -- the spaces are skipped, and then the next lexeme of the stream is in front
  have hspaces : window.scanned.readWhile Byte.isSpace =
      (window.stream.spaces, window.scanned.skip window.stream.spaces.length) :=
    h.scanned.readWhile_eq Byte.isSpace
  have hloc : (window.scanned.skip window.stream.spaces.length).loc =
      window.stream.loc.after window.stream.spaces := by
    rw [h.scanned.loc_skip]
    exact congrArg window.loc.after (take_length_takeWhile _ _)
  have hahead : (window.scanned.skip window.stream.spaces.length).pending =
      window.stream.ahead := by
    rw [h.scanned.pending_skip]
    exact drop_length_takeWhile _ _
  have hopens : (window.fresh || window.stream.spaces.any Byte.isLineBreak) =
      window.stream.opensLine := rfl
  have hfound := (h.scanned.skip window.stream.spaces.length).found?_eq window.stream.opensLine
  rw [hahead] at hfound
  rw [next, hspaces]
  dsimp only
  rw [hopens, hfound, hloc, Stream.next_eq_skipped]
  cases Lexeme.first? window.stream.opensLine window.stream.ahead with
  | none => exact ⟨rfl, hbehind _ _ rfl rfl⟩
  | some lexeme =>
    refine ⟨rfl, ?_⟩
    dsimp only [Option.map_some, foundAt]
    rw [skip_skip]
    exact hbehind _ _ rfl rfl

end Ready

end Window

end LineBasic
