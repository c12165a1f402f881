import Mathlib.Tactic.Common
import LineBasic.Listing

/-!
# Order of tokens

Places are ordered by line, then by column. The tokens of a listing stand at places that
increase strictly, the end token included (`tokens_pairwise_before`), and only the last token is
the end token (`tokens_eq_body_append`).
-/

namespace LineBasic

namespace Location

/-- The first place is on an earlier line, or further left on the same line. -/
def Before (first second : Location) : Prop :=
  first.line < second.line ∨ first.line = second.line ∧ first.column < second.column

instance (first second : Location) : Decidable (first.Before second) := by
  unfold Before
  infer_instance

/-- A line further down or the same line further on, in two steps or in one. -/
theorem Before.trans {first second third : Location} (h : first.Before second)
    (h' : second.Before third) : first.Before third := by
  unfold Before at *
  omega

theorem Before.irrefl (loc : Location) : ¬loc.Before loc := by
  unfold Before
  omega

theorem Before.ne {first second : Location} (h : first.Before second) : first ≠ second := by
  rintro rfl
  exact Before.irrefl _ h

theorem Before.asymm {first second : Location} (h : first.Before second) :
    ¬second.Before first :=
  fun h' => Before.irrefl _ (h.trans h')

/-- Standing still after a move leaves it a move. -/
theorem Before.of_eq_or {first second third : Location} (h : first.Before second)
    (h' : second = third ∨ second.Before third) : first.Before third := by
  rcases h' with rfl | h'
  · exact h
  · exact h.trans h'

/-- Every byte moves on, within the line or to the next one. -/
theorem before_next (loc : Location) (b : UInt8) : loc.Before (loc.next b) := by
  unfold next Before
  split <;> simp

/-- Bytes never move back. -/
theorem eq_or_before_after (loc : Location) (bytes : List UInt8) :
    loc = loc.after bytes ∨ loc.Before (loc.after bytes) := by
  induction bytes generalizing loc with
  | nil => exact .inl rfl
  | cons b bytes ih =>
    rw [after_cons]
    exact .inr ((loc.before_next b).of_eq_or (ih (loc.next b)))

/-- At least one byte moves on. -/
theorem before_after (loc : Location) {bytes : List UInt8} (h : bytes ≠ []) :
    loc.Before (loc.after bytes) := by
  obtain ⟨b, bytes, rfl⟩ := List.exists_cons_of_ne_nil h
  rw [after_cons]
  exact (loc.before_next b).of_eq_or ((loc.next b).eq_or_before_after bytes)

end Location

namespace Lexeme

/-- No lexeme is the end of the listing. -/
theorem first?_kind_ne_eof {opensLine : Bool} {bytes : List UInt8} {lexeme : Lexeme}
    (h : first? opensLine bytes = some lexeme) : lexeme.kind ≠ .eof := by
  cases front_of_first? h <;> exact Token.Kind.noConfusion

/-- Only at the end is there no lexeme, as any byte starts one. -/
theorem first?_eq_none_iff {opensLine : Bool} {bytes : List UInt8} :
    first? opensLine bytes = none ↔ bytes = [] := by
  constructor
  · intro h
    unfold first? at h
    -- every branch but the one for no bytes has a lexeme
    split at h
    · rfl
    · cases h
    · cases h
    · cases h
    · split at h
      · cases h
      · split at h <;> cases h
  · rintro rfl
    rfl

theorem exists_first? (opensLine : Bool) {bytes : List UInt8} (h : bytes ≠ []) :
    ∃ lexeme, first? opensLine bytes = some lexeme :=
  Option.ne_none_iff_exists'.1 (mt first?_eq_none_iff.1 h)

/-- The byte that ends a run is none of it. -/
theorem eq_false_of_mem_head?_dropWhile {p : UInt8 → Bool} {bytes : List UInt8} {b : UInt8}
    (h : b ∈ (bytes.dropWhile p).head?) : p b = false := by
  have hhead := List.head?_dropWhile_not p bytes
  rw [Option.mem_def.1 h] at hhead
  simpa using hhead

end Lexeme

namespace Stream

/-- A property of streams that holds where only the end is left, and before a token if it holds
after it, holds of all streams. -/
theorem induction {motive : Stream → Prop}
    (last : ∀ stream : Stream, stream.next.token.kind = .eof → motive stream)
    (step : ∀ stream : Stream, stream.next.token.kind ≠ .eof → motive stream.next.rest →
      motive stream) (stream : Stream) : motive stream := by
  -- each token takes bytes from what is unread
  generalize hlength : stream.unread.length = length
  induction length using Nat.strongRecOn generalizing stream with
  | ind length ih =>
    by_cases hend : stream.next.token.kind = .eof
    · exact last stream hend
    · refine step stream hend (ih _ ?_ _ rfl)
      rw [← hlength]
      exact stream.length_unread_next_lt hend

/-- At the end, the end token is the only one left. -/
theorem tokens_of_eof {stream : Stream} (h : stream.next.token.kind = .eof) :
    stream.tokens = [stream.next.token] := by
  rw [tokens, scans_eq, if_pos h]
  rfl

/-- The first token comes before those of the rest. -/
theorem tokens_of_ne_eof {stream : Stream} (h : stream.next.token.kind ≠ .eof) :
    stream.tokens = stream.next.token :: stream.next.rest.tokens := by
  rw [tokens, scans_eq, if_neg h]
  rfl

@[simp]
theorem loc_settled (stream : Stream) : stream.settled.loc = stream.loc := by
  unfold settled
  split <;> rfl

@[simp]
theorem fresh_settled (stream : Stream) : stream.settled.fresh = stream.fresh := by
  unfold settled
  split <;> rfl

/-- Only spaces are left, and the next step meets the end behind them. -/
structure Ends (stream : Stream) : Prop where
  spaces : stream.spaces = stream.unread
  token : stream.next.token = .endAt (stream.loc.after stream.unread)
  rest : stream.next.rest.unread = []

/-- A stream with nothing but spaces ahead ends. -/
theorem ends_of_nil {stream : Stream} (h : stream.ahead = []) : stream.Ends := by
  have hspaces : stream.spaces = stream.unread := by
    rw [← stream.spaces_append_ahead, h, List.append_nil]
  refine ⟨hspaces, ?_, ?_⟩
  · simp [next, h, Lexeme.first?, hspaces]
  · simp [next, h, Lexeme.first?]

/-- The next step takes in the lexeme. Its token stands behind the spaces, and the rest of the
stream behind the lexeme. -/
structure Takes (stream : Stream) (lexeme : Lexeme) : Prop where
  first : Lexeme.first? stream.opensLine stream.ahead = some lexeme
  token : stream.next.token = ⟨lexeme.kind, lexeme.literal, stream.loc.after stream.spaces⟩
  rest : stream.next.rest.unread = stream.ahead.drop lexeme.source.length
  loc : stream.next.rest.loc = (stream.loc.after stream.spaces).after lexeme.source
  fresh : stream.next.rest.fresh = false

/-- The bytes ahead are those of the lexeme and those not read after it. -/
theorem Takes.ahead {stream : Stream} {lexeme : Lexeme} (h : stream.Takes lexeme) :
    stream.ahead = lexeme.source ++ stream.next.rest.unread := by
  rw [h.rest]
  exact (List.prefix_iff_eq_append.1 (Lexeme.first?_isPrefix h.first)).symm

theorem Takes.unread {stream : Stream} {lexeme : Lexeme} (h : stream.Takes lexeme) :
    stream.unread = stream.spaces ++ lexeme.source ++ stream.next.rest.unread := by
  rw [List.append_assoc, ← h.ahead, spaces_append_ahead]

/-- The step of a stream takes in the first lexeme ahead. -/
theorem takes_of_first? {stream : Stream} {lexeme : Lexeme}
    (h : Lexeme.first? stream.opensLine stream.ahead = some lexeme) : stream.Takes lexeme where
  first := h
  token := by simp only [next, h]
  rest := by simp only [next, h, unread_settled]
  loc := by simp only [next, h, loc_settled]
  fresh := by simp only [next, h, fresh_settled]

/-- The end token comes if and only if no byte is ahead. -/
theorem next_kind_eq_eof_iff {stream : Stream} :
    stream.next.token.kind = .eof ↔ stream.ahead = [] := by
  constructor
  · intro h
    by_contra hne
    obtain ⟨lexeme, hlexeme⟩ := Lexeme.exists_first? stream.opensLine hne
    rw [(takes_of_first? hlexeme).token] at h
    exact Lexeme.first?_kind_ne_eof hlexeme h
  · intro h
    rw [(ends_of_nil h).token]
    rfl

theorem ends_of_eof {stream : Stream} (h : stream.next.token.kind = .eof) : stream.Ends :=
  ends_of_nil (next_kind_eq_eof_iff.1 h)

/-- Each step but the one that meets the end takes in a lexeme. -/
theorem exists_takes {stream : Stream} (h : stream.next.token.kind ≠ .eof) :
    ∃ lexeme, stream.Takes lexeme :=
  (Lexeme.exists_first? stream.opensLine (mt next_kind_eq_eof_iff.2 h)).imp fun _ =>
    takes_of_first?

/-- A token stands behind the spaces, the end token included. -/
theorem loc_token_next (stream : Stream) :
    stream.next.token.loc = stream.loc.after stream.spaces := by
  by_cases h : stream.next.token.kind = .eof
  · rw [(ends_of_eof h).token, (ends_of_eof h).spaces]
    rfl
  · obtain ⟨lexeme, htakes⟩ := exists_takes h
    rw [htakes.token]

/-- The next token stands at the place of the stream or after it. -/
theorem loc_next (stream : Stream) :
    stream.loc = stream.next.token.loc ∨ stream.loc.Before stream.next.token.loc := by
  rw [loc_token_next]
  exact Location.eq_or_before_after _ _

/-- After a token the stream stands behind it. -/
theorem before_loc_next_rest {stream : Stream} (h : stream.next.token.kind ≠ .eof) :
    stream.next.token.loc.Before stream.next.rest.loc := by
  obtain ⟨lexeme, htakes⟩ := exists_takes h
  rw [loc_token_next, htakes.loc]
  exact Location.before_after _ (Lexeme.first?_source_ne_nil htakes.first)

/-- No token stands before the place of the stream. -/
theorem loc_eq_or_before_of_mem_tokens (stream : Stream) :
    ∀ token ∈ stream.tokens, stream.loc = token.loc ∨ stream.loc.Before token.loc := by
  induction stream using Stream.induction with
  | last stream hend =>
    intro token htoken
    rw [tokens_of_eof hend, List.mem_singleton] at htoken
    rw [htoken]
    exact stream.loc_next
  | step stream hend ih =>
    intro token htoken
    rw [tokens_of_ne_eof hend, List.mem_cons] at htoken
    rcases htoken with rfl | htoken
    · exact stream.loc_next
    · -- a later token stands behind the rest of the stream, which stands behind this token
      have hrest : stream.loc.Before stream.next.rest.loc := by
        rcases stream.loc_next with h | h
        · exact h ▸ before_loc_next_rest hend
        · exact h.trans (before_loc_next_rest hend)
      exact .inr (hrest.of_eq_or (ih token htoken))

/-- The tokens of a stream stand one after another. -/
theorem tokens_pairwise_before (stream : Stream) :
    stream.tokens.Pairwise fun first second => first.loc.Before second.loc := by
  induction stream using Stream.induction with
  | last stream hend =>
    rw [tokens_of_eof hend]
    exact List.pairwise_singleton _ _
  | step stream hend ih =>
    rw [tokens_of_ne_eof hend, List.pairwise_cons]
    refine ⟨fun token htoken => ?_, ih⟩
    have hrest := stream.next.rest.loc_eq_or_before_of_mem_tokens token htoken
    exact (before_loc_next_rest hend).of_eq_or hrest

/-- The end token stands last and nowhere else. -/
theorem tokens_eq_body_append (stream : Stream) :
    ∃ body loc, stream.tokens = body ++ [.endAt loc] ∧ ∀ token ∈ body, token.kind ≠ .eof := by
  induction stream using Stream.induction with
  | last stream hend =>
    -- the end token alone, with nothing in front of it
    exact ⟨[], _, by rw [tokens_of_eof hend, (ends_of_eof hend).token]; rfl, by simp⟩
  | step stream hend ih =>
    obtain ⟨body, loc, htokens, hbody⟩ := ih
    refine ⟨stream.next.token :: body, loc, ?_, ?_⟩
    · rw [tokens_of_ne_eof hend, htokens]
      rfl
    · intro token htoken
      rcases List.mem_cons.1 htoken with rfl | htoken
      · exact hend
      · exact hbody token htoken

end Stream

/-- The tokens of a listing are those of its body, in the order of their places, and the end. -/
theorem tokenize_eq_body_append (bytes : List UInt8) :
    ∃ body finish, tokenize bytes = body ++ [.endAt finish] ∧
      (∀ token ∈ body, token.kind ≠ .eof) ∧
      body.Pairwise fun first second => first.loc.Before second.loc := by
  obtain ⟨body, finish, htokens, hbody⟩ :=
    (Stream.ofDelivery (.ofBytes bytes)).tokens_eq_body_append
  refine ⟨body, finish, htokens, hbody, ?_⟩
  have horder := (Stream.ofDelivery (.ofBytes bytes)).tokens_pairwise_before
  rw [htokens] at horder
  exact (List.pairwise_append.1 horder).1

/-- The cursor on tokens of which the last is the end. -/
theorem Cursor.ofTokens_append (body : List Token) (finish : Location)
    (arrays : List (String × Location)) :
    Cursor.ofTokens (body ++ [.endAt finish]) arrays = .start body finish arrays := by
  simp [Cursor.ofTokens, Token.endAt]

/-- What is found in a listing is what the steps over its body find. -/
theorem parse_of_tokenize {bytes : List UInt8} {body : List Token} {finish : Location}
    (h : tokenize bytes = body ++ [.endAt finish]) :
    (parse bytes).program =
        (Grammar.steps (.start body finish [])).1.filterMap (·.statement) ∧
      (parse bytes).final = (Grammar.steps (.start body finish [])).2 := by
  rw [← Cursor.ofTokens_append, ← h]
  exact ⟨rfl, rfl⟩

end LineBasic
