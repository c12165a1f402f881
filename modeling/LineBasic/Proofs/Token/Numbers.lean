import Mathlib.Data.List.DropRight
import LineBasic.Proofs.Token.Openings
import LineBasic.Proofs.Token.Pieces

/-!
# Line numbers and numbers within a line

A token that starts with a digit is a line number if only blanks stand in front of it on its line,
and a number within a line otherwise; no other token is either of the two (`kind_of_digit`).

The scanner knows whether a token opens a line from what it has just skipped and from whether it has
scanned anything at all. `Byte.opensLine` tells the same from the bytes in front of the token alone,
and the two agree along the whole listing because no token takes in a line break: behind a token
there is always something other than a blank on the line.
-/

namespace LineBasic

/-! ## Bytes in front of a token -/

namespace Byte

/-- The bytes of the last line, those behind the last line break. -/
def lastLine (front : List UInt8) : List UInt8 :=
  front.rtakeWhile fun b => !isLineBreak b

/-- Whether nothing but blanks stands on the last line, so that what comes next opens it. -/
def opensLine (front : List UInt8) : Bool :=
  (lastLine front).all isBlank

variable {front : List UInt8}

/-- A line break opens a line, and blanks leave it open. -/
theorem opensLine_append_singleton (front : List UInt8) (b : UInt8) :
    opensLine (front ++ [b]) = (isLineBreak b || opensLine front && isBlank b) := by
  rw [opensLine, lastLine, List.rtakeWhile_concat]
  cases hb : isLineBreak b with
  | true => rfl
  | false => simp [opensLine, lastLine]

/-- Bytes within a line leave it open as long as all of them are blanks. -/
theorem opensLine_append {more : List UInt8} (h : ∀ b ∈ more, isLineBreak b = false) :
    opensLine (front ++ more) = (opensLine front && more.all isBlank) := by
  induction more using List.reverseRecOn with
  | nil => simp
  | append_singleton more b ih =>
    rw [List.forall_mem_append, List.forall_mem_singleton] at h
    rw [← List.append_assoc, opensLine_append_singleton, ih h.1, h.2, Bool.false_or,
      List.all_append, List.all_cons, List.all_nil, Bool.and_true, Bool.and_assoc]

/-- Spaces leave a line open, and a line break among them opens one. -/
theorem opensLine_append_spaces {spaces : List UInt8} (h : ∀ b ∈ spaces, isSpace b = true) :
    opensLine (front ++ spaces) = (opensLine front || spaces.any isLineBreak) := by
  induction spaces using List.reverseRecOn with
  | nil => simp
  | append_singleton spaces b ih =>
    rw [List.forall_mem_append, List.forall_mem_singleton, isSpace, Bool.or_eq_true] at h
    rw [← List.append_assoc, opensLine_append_singleton, ih h.1, List.any_append]
    rcases h.2 with hblank | hbreak
    · have hno : isLineBreak b = false :=
        Byte.isLineBreak_eq_false (p := isBlank) (by decide) (by decide) hblank
      simp [hblank, hno]
    · simp [hbreak]

/-- Behind a token its line is not open any more. -/
theorem opensLine_append_source {source : List UInt8} (hne : source ≠ [])
    (hhead : ∀ b ∈ source.head?, isSpace b = false) (h : ∀ b ∈ source, isLineBreak b = false) :
    opensLine (front ++ source) = false := by
  obtain ⟨b, rest, rfl⟩ := List.exists_cons_of_ne_nil hne
  have hb : isBlank b = false := (Bool.or_eq_false_iff.1 (hhead b rfl)).1
  rw [opensLine_append h, List.all_cons, hb, Bool.false_and, Bool.and_false]

end Byte

/-- Two parts from the start of a listing that end at the same place are the same. -/
theorem Location.behind_inj {bytes front front' : List UInt8} (h : front <+: bytes)
    (h' : front' <+: bytes) (heq : behind front = behind front') : front = front' := by
  have hlonger {short more : List UInt8} (heq : behind short = behind (short ++ more)) :
      more = [] := by
    by_contra hne
    rw [← start_after, ← start_after, after_append] at heq
    exact (before_after _ hne).ne heq
  rcases List.prefix_or_prefix_of_prefix h h' with ⟨more, rfl⟩ | ⟨more, rfl⟩
  · rw [hlonger heq, List.append_nil]
  · rw [hlonger heq.symm, List.append_nil]

/-! ## Lexemes that are numbers -/

namespace Lexeme

/-- A number where a line opens is that of the line. -/
theorem kind_number (opensLine : Bool) (bytes : List UInt8) :
    (number opensLine bytes).kind = if opensLine then .lineNo else .num := by
  cases opensLine <;> rfl

/-- A number starts with a digit. -/
theorem isDigit_of_first? {opensLine : Bool} {b : UInt8} {bytes : List UInt8} {lexeme : Lexeme}
    (h : first? opensLine (b :: bytes) = some lexeme)
    (hkind : lexeme.kind = .lineNo ∨ lexeme.kind = .num) : Byte.isDigit b = true := by
  cases front_of_first? h with
  | lineNo hdigit | num hdigit => exact hdigit
  | _ => rcases hkind with hkind | hkind <;> cases hkind

end Lexeme

/-! ## Along a stream -/

/-- A token that starts with byte `b` behind the bytes `front` is a number if `b` is a digit, and
then its kind tells whether it opens its line. -/
structure Token.NumberedAt (front : List UInt8) (b : UInt8) (token : Token) : Prop where
  loc : token.loc = .behind front
  kind : Byte.isDigit b = true → token.kind = if Byte.opensLine front then .lineNo else .num
  isDigit : token.kind = .lineNo ∨ token.kind = .num → Byte.isDigit b = true

namespace Stream

/-- The stream stands behind the bytes given and knows whether its next token opens a line. -/
structure StandsBehind (front : List UInt8) (stream : Stream) : Prop where
  fresh : stream.fresh = Byte.opensLine front
  loc : stream.loc = .behind front

/-- Whether a line opens depends on the bytes up to here, the spaces before the token included. -/
theorem StandsBehind.opensLine {front : List UInt8} {stream : Stream}
    (h : stream.StandsBehind front) :
    stream.opensLine = Byte.opensLine (front ++ stream.spaces) := by
  rw [Byte.opensLine_append_spaces fun _ => isSpace_of_mem_spaces, Stream.opensLine, h.fresh]

/-- One step: the token is classified by the bytes in front of it, and behind it the stream knows
again whether the next one opens a line. -/
theorem StandsBehind.step {front : List UInt8} {stream : Stream} (h : stream.StandsBehind front)
    (hend : stream.next.token.kind ≠ .eof) :
    ∃ b source, stream.unread = stream.spaces ++ b :: source ++ stream.next.rest.unread ∧
      stream.next.token.NumberedAt (front ++ stream.spaces) b ∧
      stream.next.rest.StandsBehind (front ++ stream.spaces ++ b :: source) := by
  obtain ⟨lexeme, htakes⟩ := exists_takes hend
  obtain ⟨b, source, hsource⟩ :=
    List.exists_cons_of_ne_nil (Lexeme.first?_source_ne_nil htakes.first)
  have hahead : stream.ahead = b :: (source ++ stream.next.rest.unread) := by
    rw [htakes.ahead, hsource, List.cons_append]
  have hfirst := htakes.first
  rw [hahead] at hfirst
  have hhead := stream.isSpace_head?_ahead
  have hspells := Lexeme.first?_spells htakes.first hhead
  refine ⟨b, source, ?_, ⟨?_, fun hdigit => ?_, fun hnumber => ?_⟩, ?_, ?_⟩
  · rw [← hsource, ← htakes.unread]
  · rw [loc_token_next, h.loc, ← Location.start_after, ← Location.after_append,
      Location.start_after]
  · rw [← List.cons_append, Lexeme.first?_of_isDigit ⟨b, source, rfl, hdigit⟩,
      Option.some.injEq] at hfirst
    rw [htakes.token, ← hfirst, Lexeme.kind_number, h.opensLine]
  · rw [htakes.token] at hnumber
    exact Lexeme.isDigit_of_first? hfirst hnumber
  · -- the token has a byte on the line that is no blank
    rw [htakes.fresh, ← hsource]
    refine (Byte.opensLine_append_source (Lexeme.first?_source_ne_nil htakes.first) ?_
      hspells.isLineBreak_eq_false).symm
    intro first hmem
    rw [hsource, List.head?_cons, Option.mem_some_iff] at hmem
    exact hhead first (by rw [hahead, ← hmem]; rfl)
  · rw [htakes.loc, h.loc, ← hsource, ← Location.start_after, ← Location.after_append,
      ← Location.after_append, Location.start_after, List.append_assoc]

/-- All tokens of a stream but the last are classified by the bytes in front of them. -/
theorem StandsBehind.numberedAt {front : List UInt8} {stream : Stream}
    (h : stream.StandsBehind front) :
    ∀ token ∈ stream.tokens, token = .endAt (.behind (front ++ stream.unread)) ∨
      ∃ before b rest, front ++ stream.unread = before ++ b :: rest ∧
        token.NumberedAt before b := by
  induction stream using Stream.induction generalizing front with
  | last stream hend =>
    rw [tokens_of_eof hend, List.forall_mem_singleton, (ends_of_eof hend).token, h.loc,
      ← Location.start_after, ← Location.after_append, Location.start_after]
    exact .inl rfl
  | step stream hend ih =>
    obtain ⟨b, source, hunread, htoken, hrest⟩ := h.step hend
    -- the piece and the rest make up the bytes, seen from behind the piece as well
    have hbytes : front ++ stream.spaces ++ b :: source ++ stream.next.rest.unread =
        front ++ stream.unread := by
      rw [hunread]
      simp only [List.append_assoc]
    rw [tokens_of_ne_eof hend, List.forall_mem_cons]
    refine ⟨.inr ⟨front ++ stream.spaces, b, source ++ stream.next.rest.unread, ?_, htoken⟩, ?_⟩
    · rw [← hbytes, List.append_assoc, List.cons_append]
    · rw [← hbytes]
      exact ih hrest

end Stream

/-- All tokens but the end token are classified by the bytes in front of them. -/
theorem Token.eq_endAt_or_numberedAt {bytes : List UInt8} {token : Token}
    (h : token ∈ tokenize bytes) :
    token = .endAt (.behind bytes) ∨
      ∃ before b rest, bytes = before ++ b :: rest ∧ token.NumberedAt before b := by
  have hstart : (⟨bytes, .start, true, none⟩ : Stream).StandsBehind [] := ⟨rfl, rfl⟩
  rw [tokenize, Stream.ofDelivery_ofBytes] at h
  exact hstart.numberedAt token h

/-- A token that starts with a digit is a line number if nothing but blanks stands between it and
the line break before it, or the start of the listing, and a number within a line otherwise. Every
line number and every other number starts with a digit. -/
theorem kind_of_digit (bytes : List UInt8) :
    ∀ token ∈ tokenize bytes,
      (∀ front b rest, bytes = front ++ b :: rest → token.loc = .behind front →
        Byte.isDigit b = true →
        token.kind = if (Byte.lastLine front).all Byte.isBlank then .lineNo else .num) ∧
      (token.kind = .lineNo ∨ token.kind = .num →
        ∃ front b rest, bytes = front ++ b :: rest ∧ token.loc = .behind front ∧
          Byte.isDigit b = true) := by
  intro token htoken
  rcases Token.eq_endAt_or_numberedAt htoken with rfl | ⟨before, b, rest, hbytes, hnumbered⟩
  · -- the end token stands behind all bytes
    refine ⟨fun front b rest hbytes hloc _ => ?_, fun hkind => ?_⟩
    · have hfront : bytes = front :=
        Location.behind_inj List.prefix_rfl ⟨b :: rest, hbytes.symm⟩ hloc
      rw [← hfront] at hbytes
      simp at hbytes
    · rcases hkind with hkind | hkind <;> cases hkind
  · refine ⟨fun front b' rest' hbytes' hloc hdigit => ?_, fun hkind => ?_⟩
    · -- the place of a token tells how many bytes stand in front of it
      have hfront : front = before :=
        Location.behind_inj ⟨b' :: rest', hbytes'.symm⟩ ⟨b :: rest, hbytes.symm⟩
          (hloc.symm.trans hnumbered.loc)
      subst hfront
      rw [hbytes, List.append_cancel_left_eq, List.cons.injEq] at hbytes'
      exact hnumbered.kind (hbytes'.1 ▸ hdigit)
    · exact ⟨before, b, rest, hbytes, hnumbered.loc, hnumbered.isDigit hkind⟩

/-- The theorem at a number behind a remark that a carriage return ends, with a blank in front. -/
theorem kind_of_digit_carriageReturn :
    ∃ token ∈ tokenize (Utf8.encode "10 'x\r 20 X = 1"), token.literal = "20" ∧
      token.kind =
        if (Byte.lastLine (Utf8.encode "10 'x\r ")).all Byte.isBlank then .lineNo else .num := by
  have hmem : (⟨.lineNo, "20", ⟨1, 8⟩⟩ : Token) ∈ tokenize (Utf8.encode "10 'x\r 20 X = 1") := by
    decide +kernel
  refine ⟨_, hmem, rfl, (kind_of_digit _ _ hmem).1 (Utf8.encode "10 'x\r ") 0x32
    (Utf8.encode "0 X = 1") ?_ ?_ ?_⟩
  · decide
  · decide
  · decide

end LineBasic
