import LineBasic.Proofs.Grammar.Rounds
import LineBasic.Proofs.Relocation

/-!
# Parsing a part of a listing

A part of a listing can be parsed alone, or where it stands: at other places, after what other
parts left behind, and with further lines or statements after it in the place of the end. `Seam`
says how the part is joined to the rest and `Seam.Tracks` how the two cursors correspond while the
part is parsed both ways. A parser follows the seam (`Seam.Follows`) if it gives corresponding
outcomes from corresponding cursors.

What follows the part starts with a line number or a colon. Most rules of the grammar treat these
as they treat the end, and those follow every seam. Only the loops tell a line number from the end.
Statements that hold others tell a colon from it, and the end of a statement takes the colon in:
then the joined parse has gone one token further (`Seam.Past`).
-/

namespace LineBasic

open Cursor

theorem Token.Kind.ne_eof {kind : Token.Kind} (h : kind.isTerminator = false) : kind ≠ .eof := by
  rintro rfl
  cases h

/-- How a part of a listing is joined to the rest. -/
structure Seam where
  /-- Where the places of the part come to stand. -/
  place : Location → Location
  /-- The tokens after the part, the end token left out. -/
  tail : List Token
  /-- If there are any, the first of them opens a line, or it is a colon. -/
  opens : ∀ token ∈ tail.head?, token.kind = .lineNo ∨ token.kind = .sym .colon
  /-- What was found wrong before the part. -/
  earlier : List Diagnostic
  /-- Whether the two parses have to correspond even if something is wrong with the part. -/
  strict : Bool

namespace Seam

variable {seam : Seam}

/-- If something follows the part, it opens a line. -/
def AtLine (seam : Seam) : Prop :=
  ∀ token ∈ seam.tail.head?, token.kind = .lineNo

/-- The token that the joined parse sees in the place of a token of the part. -/
def image (seam : Seam) (token : Token) : Token :=
  if token.kind = .eof then seam.tail.headD (token.relocate seam.place)
  else token.relocate seam.place

/-- A diagnostic as the joined parse gives it: one about the end is about what follows. -/
def revise (seam : Seam) (diagnostic : Diagnostic) : Diagnostic :=
  let next := seam.image (.endAt diagnostic.loc)
  match diagnostic.cause with
  | .unexpected expected .eof => ⟨.unexpected expected next.kind, next.loc⟩
  | .noJump .eof => ⟨.noJump next.kind, next.loc⟩
  | .noOperand .eof => ⟨.noOperand next.kind, next.loc⟩
  | _ => diagnostic.relocate seam.place

theorem image_of_ne_eof (seam : Seam) {token : Token} (h : token.kind ≠ .eof) :
    seam.image token = token.relocate seam.place :=
  if_neg h

/-- Where nothing follows the part, its end token stays the end. -/
theorem image_of_tail_nil (h : seam.tail = []) (token : Token) :
    seam.image token = token.relocate seam.place := by
  unfold image
  split
  · rw [h]
    rfl
  · rfl

/-- The first token that follows stands in for the end token. -/
theorem image_of_tail_cons {first : Token} {rest : List Token} (h : seam.tail = first :: rest)
    {token : Token} (htoken : token.kind = .eof) : seam.image token = first := by
  rw [image, if_pos htoken, h]
  rfl

/-- The kind of a token changes only at the end, to a line number or a colon. -/
theorem image_kind (seam : Seam) (token : Token) :
    (seam.image token).kind = token.kind ∨
      token.kind = .eof ∧
        ((seam.image token).kind = .lineNo ∨ (seam.image token).kind = .sym .colon) := by
  by_cases h : token.kind = .eof
  · -- the end is the end, or what follows the part
    cases htail : seam.tail with
    | nil =>
      rw [image_of_tail_nil htail]
      exact .inl rfl
    | cons first rest =>
      rw [image_of_tail_cons htail h]
      exact .inr ⟨h, seam.opens first (by rw [htail]; rfl)⟩
  · rw [seam.image_of_ne_eof h]
    exact .inl rfl

/-- Where a line starts behind the part, the end is replaced by a line number. -/
theorem AtLine.image_kind (hline : seam.AtLine) (token : Token) :
    (seam.image token).kind = token.kind ∨
      token.kind = .eof ∧ (seam.image token).kind = .lineNo := by
  rcases seam.image_kind token with hsame | ⟨heof, hnext⟩
  · exact .inl hsame
  · refine .inr ⟨heof, ?_⟩
    cases htail : seam.tail with
    | nil =>
      rw [image_of_tail_nil htail, Token.kind_relocate, heof] at hnext
      rcases hnext with hnext | hnext <;> cases hnext
    | cons first rest =>
      rw [image_of_tail_cons htail heof]
      exact hline first (by rw [htail]; rfl)

/-- What does not tell a line number or a colon from the end sees no difference. -/
theorem image_kind_congr (seam : Seam) {β : Sort*} (test : Token.Kind → β)
    (hline : test .eof = test .lineNo) (hcolon : test .eof = test (.sym .colon)) (token : Token) :
    test (seam.image token).kind = test token.kind := by
  rcases seam.image_kind token with hsame | ⟨heof, hkind | hkind⟩
  · rw [hsame]
  · rw [hkind, heof, hline]
  · rw [hkind, heof, hcolon]

/-- What does not end a line is seen in the joined parse exactly where it is in the part. -/
theorem image_kind_eq_iff (seam : Seam) {kind : Token.Kind} (hkind : kind.isTerminator = false)
    (token : Token) : (seam.image token).kind = kind ↔ token.kind = kind := by
  have hne {other : Token.Kind} (hother : other.isTerminator = true) : (other = kind) = False := by
    refine eq_false fun heq => ?_
    rw [heq, hkind] at hother
    cases hother
  refine iff_of_eq (seam.image_kind_congr (· = kind) ?_ ?_ token)
  · rw [hne rfl, hne rfl]
  · rw [hne rfl, hne rfl]

/-- Of the end token only the kind and the place matter. -/
theorem image_endAt (seam : Seam) {token : Token} (h : token.kind = .eof) :
    (seam.image (.endAt token.loc)).kind = (seam.image token).kind ∧
      (seam.image (.endAt token.loc)).loc = (seam.image token).loc := by
  have heof : (Token.endAt token.loc).kind = .eof := rfl
  simp only [image, if_pos heof, if_pos h]
  cases seam.tail with
  | nil => exact ⟨h.symm, rfl⟩
  | cons head tail => exact ⟨rfl, rfl⟩

/-- A diagnostic about a token is about its image, if that is so for the end and if any other
token only changes its place. -/
theorem revise_about {about : Token.Kind → Cause}
    (heof : ∀ loc, seam.revise ⟨about .eof, loc⟩ =
      ⟨about (seam.image (.endAt loc)).kind, (seam.image (.endAt loc)).loc⟩)
    (hother : ∀ kind loc, kind ≠ .eof →
      seam.revise ⟨about kind, loc⟩ = ⟨about kind, seam.place loc⟩) (token : Token) :
    seam.revise ⟨about token.kind, token.loc⟩ =
      ⟨about (seam.image token).kind, (seam.image token).loc⟩ := by
  by_cases h : token.kind = .eof
  · obtain ⟨hkind, hloc⟩ := seam.image_endAt h
    rw [h, heof, hkind, hloc]
  · rw [seam.image_of_ne_eof h, hother _ _ h]
    rfl

/-- A token that was not expected is named as the joined parse sees it. -/
theorem revise_unexpected (expected : Token.Kind) (token : Token) :
    seam.revise ⟨.unexpected expected token.kind, token.loc⟩ =
      ⟨.unexpected expected (seam.image token).kind, (seam.image token).loc⟩ :=
  revise_about (fun _ => rfl) (fun kind _ h => by simp [revise, h, Diagnostic.relocate]) token

/-- A token in the place of `GOTO` or `GOSUB` is named as the joined parse sees it. -/
theorem revise_noJump (token : Token) :
    seam.revise ⟨.noJump token.kind, token.loc⟩ =
      ⟨.noJump (seam.image token).kind, (seam.image token).loc⟩ :=
  revise_about (fun _ => rfl) (fun kind _ h => by simp [revise, h, Diagnostic.relocate]) token

/-- A token in the place of an operand is named as the joined parse sees it. -/
theorem revise_noOperand (token : Token) :
    seam.revise ⟨.noOperand token.kind, token.loc⟩ =
      ⟨.noOperand (seam.image token).kind, (seam.image token).loc⟩ :=
  revise_about (fun _ => rfl) (fun kind _ h => by simp [revise, h, Diagnostic.relocate]) token

/-! ## Corresponding cursors -/

/-- The cursor of the part alone and that of the joined parse stand at the same token of the
part, or both behind it. -/
structure Tracks (seam : Seam) (cursor joined : Cursor) : Prop where
  tokens : joined.tokens = cursor.tokens.map (·.relocate seam.place) ++ seam.tail
  finish : seam.tail = [] → joined.finish = seam.place cursor.finish
  body : ∀ token ∈ cursor.tokens, token.kind ≠ .eof
  arrays : ∀ name, joined.isArray name = cursor.isArray name
  diagnostics : joined.diagnostics = seam.earlier ++ cursor.diagnostics.map seam.revise
  loops : seam.strict = true → seam.tail = [] ∨ ∀ token ∈ cursor.tokens, token.kind ≠ .word .for_
  flat : seam.AtLine ∨
    ∀ token ∈ cursor.tokens, token.kind ≠ .word .if_ ∧ token.kind ≠ .word .for_

/-- The cursors correspond and are still on a token of the part. -/
structure Inside (seam : Seam) (cursor joined : Cursor) : Prop
    extends Tracks seam cursor joined where
  inside : cursor.tokens ≠ []

variable {cursor joined : Cursor}

/-- The joined parse has as many tokens left as the part alone, and those after the part. -/
theorem Tracks.length_le (h : seam.Tracks cursor joined) :
    cursor.tokens.length ≤ joined.tokens.length := by
  rw [h.tokens, List.length_append, List.length_map]
  exact Nat.le_add_right _ _

/-- Inside the part, the current token is not its end. -/
theorem Inside.current_kind (h : seam.Inside cursor joined) : cursor.current.kind ≠ .eof := by
  obtain ⟨token, tokens, htokens⟩ := List.exists_cons_of_ne_nil h.inside
  rw [Cursor.current, htokens]
  exact h.body token (htokens ▸ List.mem_cons_self)

theorem Inside.current_mem (h : seam.Inside cursor joined) : cursor.current ∈ cursor.tokens := by
  rw [tokens_eq_cons h.current_kind]
  exact List.mem_cons_self

/-- The current tokens differ in their places at most. -/
theorem Inside.current (h : seam.Inside cursor joined) :
    joined.current = cursor.current.relocate seam.place := by
  obtain ⟨token, tokens, htokens⟩ := List.exists_cons_of_ne_nil h.inside
  rw [Cursor.current, Cursor.current, h.tokens, htokens]
  rfl

/-- The joined parse has the rest of the part in front of it, and then what follows. -/
theorem Inside.rest (h : seam.Inside cursor joined) :
    joined.rest = cursor.rest.map (·.relocate seam.place) ++ seam.tail := by
  obtain ⟨token, tokens, htokens⟩ := List.exists_cons_of_ne_nil h.inside
  rw [Cursor.rest, Cursor.rest, h.tokens, htokens]
  rfl

/-- The next token of the joined parse is the image of that of the part. -/
theorem Inside.peek (h : seam.Inside cursor joined) : joined.peek = seam.image cursor.peek := by
  change joined.rest.headD joined.endToken = seam.image (cursor.rest.headD cursor.endToken)
  rw [h.rest]
  cases hrest : cursor.rest with
  | nil =>
    -- the part ends here: the joined parse sees what follows it, or the end at its own place
    have heof : cursor.endToken.kind = .eof := rfl
    rw [List.headD_nil, image, if_pos heof]
    cases htail : seam.tail with
    | nil =>
      change joined.endToken = cursor.endToken.relocate seam.place
      rw [endToken, h.finish htail]
      rfl
    | cons head tail => rfl
  | cons next tokens =>
    have hnext : next.kind ≠ .eof :=
      h.body next (List.mem_of_mem_tail (by rw [← Cursor.rest, hrest]; exact List.mem_cons_self))
    exact (seam.image_of_ne_eof hnext).symm

/-- Nothing comes behind the end token. -/
theorem Inside.rest_eq_nil (h : seam.Inside cursor joined) (hpeek : cursor.peek.kind = .eof) :
    cursor.rest = [] := by
  refine List.eq_nil_iff_forall_not_mem.2 fun token htoken => ?_
  have hcons := List.cons_head_tail (List.ne_nil_of_mem htoken)
  refine h.body cursor.peek (List.mem_of_mem_tail ?_) hpeek
  rw [peek_of_rest_cons hcons.symm]
  exact List.head_mem _

/-- Tokens of the part are passed over in both parses. -/
theorem Tracks.of_suffix (h : seam.Tracks cursor joined) {tokens tokens' : List Token}
    (hsuffix : tokens <:+ cursor.tokens)
    (htokens : tokens' = tokens.map (·.relocate seam.place) ++ seam.tail) :
    seam.Tracks { cursor with tokens := tokens } { joined with tokens := tokens' } where
  tokens := htokens
  finish := h.finish
  body token htoken := h.body token (hsuffix.subset htoken)
  arrays := h.arrays
  diagnostics := h.diagnostics
  loops hstrict := (h.loops hstrict).imp_right fun hloops token htoken =>
    hloops token (hsuffix.subset htoken)
  flat := h.flat.imp_right fun hflat token htoken => hflat token (hsuffix.subset htoken)

/-- Moving on from a token of the part. -/
theorem Inside.step (h : seam.Inside cursor joined) :
    seam.Tracks cursor.advance joined.advance :=
  h.toTracks.of_suffix (List.tail_suffix _) h.rest

/-- Moving on from a token in front of the end stays inside the part. -/
theorem Inside.advance (h : seam.Inside cursor joined) (hpeek : cursor.peek.kind ≠ .eof) :
    seam.Inside cursor.advance joined.advance where
  toTracks := h.step
  inside := by
    rw [tokens_advance, rest_eq_cons hpeek]
    exact List.cons_ne_nil _ _

/-- Events that are no diagnostics may differ. -/
theorem diagnostics_note_joined {event event' : Event}
    (h : joined.diagnostics = seam.earlier ++ cursor.diagnostics.map seam.revise)
    (hevent : event'.diagnostic? = event.diagnostic?.map seam.revise) :
    (joined.note event').diagnostics =
      seam.earlier ++ (cursor.note event).diagnostics.map seam.revise := by
  rw [diagnostics_note, diagnostics_note, hevent, h, List.map_append, List.append_assoc]
  cases event.diagnostic? <;> rfl

/-- Events that correspond keep the cursors inside the part. -/
theorem Inside.note (h : seam.Inside cursor joined) {event event' : Event}
    (hevent : event'.diagnostic? = event.diagnostic?.map seam.revise) :
    seam.Inside (cursor.note event) (joined.note event') :=
  { h with diagnostics := diagnostics_note_joined h.diagnostics hevent }

/-- Declaring the same array in both parses keeps the cursors inside the part. -/
theorem Inside.declare (h : seam.Inside cursor joined) (name : String) (loc loc' : Location)
    (dimensions : Nat) :
    seam.Inside (cursor.declare name loc dimensions) (joined.declare name loc' dimensions) := by
  have harrays : seam.Inside { cursor with arrays := (name, loc) :: cursor.arrays }
      { joined with arrays := (name, loc') :: joined.arrays } :=
    -- the places of the declarations differ, but only their names are looked up
    { h with
      arrays := fun other => by
        have hother := h.arrays other
        simp only [isArray, declaration?, List.lookup_cons] at hother ⊢
        split
        · rfl
        · exact hother }
  unfold Cursor.declare
  refine harrays.note ?_
  split <;> split <;> rfl

/-! ## The end of a statement -/

/-- The parse of the part alone is on its last token, and the joined parse on the colon after it. -/
structure Past (seam : Seam) (cursor joined : Cursor) : Prop where
  behind : seam.Tracks cursor.advance joined
  last : cursor.rest = []
  colon : joined.current.kind = .sym .colon

/-- How the cursors correspond at the end of a statement, which takes in the colon after it. -/
def Ended (seam : Seam) (cursor joined : Cursor) : Prop :=
  seam.Inside cursor joined ∨ seam.Past cursor joined

/-- No colon follows the part where a line starts. -/
theorem Ended.inside (h : seam.Ended cursor joined) (hline : seam.AtLine) :
    seam.Inside cursor joined := by
  refine h.resolve_right fun hpast => ?_
  have hcolon := hpast.colon
  rw [Cursor.current, hpast.behind.tokens, tokens_advance, hpast.last] at hcolon
  cases htail : seam.tail with
  | nil =>
    rw [htail] at hcolon
    cases hcolon
  | cons first rest =>
    rw [htail] at hcolon
    have hfirst : first.kind = .sym .colon := hcolon
    rw [hline first (by rw [htail]; rfl)] at hfirst
    cases hfirst

/-- Events that correspond keep the cursors at the end of a statement. -/
theorem Ended.note (h : seam.Ended cursor joined) {event event' : Event}
    (hevent : event'.diagnostic? = event.diagnostic?.map seam.revise) :
    seam.Ended (cursor.note event) (joined.note event') := by
  rcases h with hinside | ⟨hbehind, hlast, hcolon⟩
  · exact .inl (hinside.note hevent)
  · have hdiagnostics : joined.diagnostics =
        seam.earlier ++ cursor.diagnostics.map seam.revise := hbehind.diagnostics
    have hnote := diagnostics_note_joined hdiagnostics hevent
    exact .inr ⟨{ hbehind with diagnostics := hnote }, hlast, hcolon⟩

/-- If the seam is a colon, the joined parse takes it in where the part has ended. -/
theorem Inside.skipSeparator (h : seam.Inside cursor joined) :
    seam.Ended cursor.skipSeparator joined.skipSeparator := by
  unfold Cursor.skipSeparator peekIs
  rw [h.peek]
  by_cases hcolon : cursor.peek.kind = .sym .colon
  · -- a colon of the part, which both parses take in
    have hpeek : cursor.peek.kind ≠ .eof := by
      rw [hcolon]
      decide
    rw [seam.image_of_ne_eof hpeek, Token.kind_relocate, if_pos (decide_eq_true hcolon),
      if_pos (decide_eq_true hcolon)]
    exact .inl (h.advance hpeek)
  · rw [if_neg (mt of_decide_eq_true hcolon)]
    split
    next hnext =>
      -- the colon after the part
      have hnext := of_decide_eq_true hnext
      have heof : cursor.peek.kind = .eof := by
        rcases seam.image_kind cursor.peek with hsame | ⟨heof, -⟩
        · exact absurd (hsame ▸ hnext) hcolon
        · exact heof
      exact .inr ⟨h.step, h.rest_eq_nil heof, by rwa [current_advance, h.peek]⟩
    next => exact .inl h

/-- Recovery looks for the end of the line, and finds it no later than the seam. -/
theorem beforeTerminator_relocate (seam : Seam) {tokens : List Token} (h : tokens ≠ []) :
    beforeTerminator (tokens.map (·.relocate seam.place) ++ seam.tail) =
      (beforeTerminator tokens).map (·.relocate seam.place) ++ seam.tail := by
  fun_induction beforeTerminator tokens with
  | case1 token next rest hnext =>
    rw [List.map_cons, List.map_cons, List.cons_append, List.cons_append, beforeTerminator,
      Token.kind_relocate, if_pos hnext]
  | case2 token next rest hnext ih =>
    -- the token is given up in both parses
    rw [List.map_cons, List.map_cons, List.cons_append, List.cons_append, beforeTerminator,
      Token.kind_relocate, if_neg hnext]
    exact ih (List.cons_ne_nil _ _)
  | case3 tokens hshort =>
    obtain ⟨token, rest, rfl⟩ := List.exists_cons_of_ne_nil h
    cases rest with
    | cons next rest => exact absurd rfl (hshort token next rest)
    | nil =>
      -- what follows the part is a terminator
      cases htail : seam.tail with
      | nil => rfl
      | cons head tail =>
        have hhead : head.kind.isTerminator = true := by
          rcases seam.opens head (by rw [htail]; rfl) with hkind | hkind <;> rw [hkind] <;> rfl
        simp [beforeTerminator, hhead]

/-- The token in front of the end of the line is one of those left. -/
theorem beforeTerminator_ne_nil {tokens : List Token} (h : tokens ≠ []) :
    beforeTerminator tokens ≠ [] := by
  fun_induction beforeTerminator tokens with
  | case1 => exact List.cons_ne_nil _ _
  | case2 token next rest _ ih => exact ih (List.cons_ne_nil _ _)
  | case3 => exact h

/-- Recovery ends at the same token in both parses. -/
theorem Inside.synchronize (h : seam.Inside cursor joined) :
    seam.Ended cursor.synchronize joined.synchronize := by
  have hcurrent : joined.current.kind = cursor.current.kind := by
    rw [h.current]
    rfl
  unfold Cursor.synchronize
  rw [hcurrent]
  split
  · exact .inl h
  · -- what is left is a suffix, so all that held of the tokens before still does
    have hsuffix := (drift_moves.beforeTerminator cursor).tokens
    refine Inside.skipSeparator ⟨h.toTracks.of_suffix hsuffix ?_, beforeTerminator_ne_nil h.inside⟩
    exact h.tokens ▸ seam.beforeTerminator_relocate h.inside

/-! ## Corresponding outcomes -/

variable {α β : Type}

/-- The joined parse comes to the same outcome as the part alone. A rule that ends a statement may
have taken in the colon after the part. -/
inductive Agree (seam : Seam) (ending : Bool) (f : α → α) :
    EStateM.Result Diagnostic Cursor α → EStateM.Result Diagnostic Cursor α → Prop
  | ok {cursor joined : Cursor} {value value' : α} (hvalue : value' = f value)
      (hinside : seam.Inside cursor joined) :
      Agree seam ending f (.ok value cursor) (.ok value' joined)
  | past {cursor joined : Cursor} {value value' : α} (hending : ending = true)
      (hvalue : value' = f value) (hpast : seam.Past cursor joined) :
      Agree seam ending f (.ok value cursor) (.ok value' joined)
  | error {cursor joined : Cursor} {diagnostic diagnostic' : Diagnostic}
      (hdiagnostic : diagnostic' = seam.revise diagnostic) (hinside : seam.Inside cursor joined) :
      Agree seam ending f (.error diagnostic cursor) (.error diagnostic' joined)

/-- The parsers come to the same outcome from corresponding cursors. -/
def Follows (seam : Seam) (ending : Bool) (f : α → α) (x y : Parse α) : Prop :=
  ∀ ⦃cursor joined⦄, seam.Inside cursor joined → seam.Agree ending f (x cursor) (y joined)

section Combinators

variable {ending : Bool} {f : α → α} {g : β → β} {x y : Parse α}

theorem Agree.of_ended {value value' : α} (hvalue : value' = f value)
    (h : seam.Ended cursor joined) : seam.Agree true f (.ok value cursor) (.ok value' joined) :=
  h.elim (.ok hvalue) (.past rfl hvalue)

theorem Follows.pure {value value' : α} (h : value' = f value) :
    seam.Follows ending f (Pure.pure value) (Pure.pure value') :=
  fun _ _ hinside => .ok h hinside

/-- If the first results agree, the outcome is up to what is done with them. -/
theorem Agree.bind {k l : α → Parse β} (hx : seam.Agree false f (x cursor) (y joined))
    (hk : ∀ {value middle middle'}, x cursor = .ok value middle → seam.Inside middle middle' →
      seam.Agree ending g (k value middle) (l (f value) middle')) :
    seam.Agree ending g ((x >>= k) cursor) ((y >>= l) joined) := by
  rw [Parse.bind_apply, Parse.bind_apply]
  generalize houtcome : x cursor = outcome at hx
  generalize y joined = outcome' at hx
  cases hx with
  | ok hvalue hinside =>
    subst hvalue
    exact hk houtcome hinside
  | past hending => cases hending
  | error hdiagnostic hinside => exact .error hdiagnostic hinside

/-- Parsers that follow the seam do so one behind the other. -/
theorem Follows.bind {k l : α → Parse β} (hx : seam.Follows false f x y)
    (hk : ∀ value, seam.Follows ending g (k value) (l (f value))) :
    seam.Follows ending g (x >>= k) (y >>= l) :=
  fun _ _ hinside => (hx hinside).bind fun _ hmiddle => hk _ hmiddle

/-- The current token is one of the part, so only its place differs. -/
theorem Follows.current : seam.Follows ending (·.relocate seam.place) Parse.current Parse.current :=
  fun _ _ hinside => .ok hinside.current hinside

/-- A rule that looks at the next token sees its image. -/
theorem Follows.peek {k l : Token → Parse β}
    (h : ∀ ⦃cursor joined⦄, seam.Inside cursor joined →
      seam.Agree ending g (k cursor.peek cursor) (l (seam.image cursor.peek) joined)) :
    seam.Follows ending g (Parse.peek >>= k) (Parse.peek >>= l) := by
  intro cursor joined hinside
  have hagree := h hinside
  rw [← hinside.peek] at hagree
  exact hagree

/-- A rule that moves on, once it has seen that the part does not end here. -/
theorem Agree.advance {k l : Token → Parse β} (hinside : seam.Inside cursor joined)
    (hpeek : cursor.peek.kind ≠ .eof)
    (hk : seam.Follows ending g (k cursor.peek) (l (cursor.peek.relocate seam.place))) :
    seam.Agree ending g ((Parse.advance >>= k) cursor) ((Parse.advance >>= l) joined) := by
  have hagree := hk (hinside.advance hpeek)
  rw [← seam.image_of_ne_eof hpeek, ← hinside.peek] at hagree
  exact hagree

/-- A rule that takes the next token in if it is of the kind given. -/
theorem Follows.ifNext {kind : Token.Kind} (hkind : kind.isTerminator = false)
    {k l : Token → Parse β} {x y : Parse β}
    (hk : ∀ token, seam.Follows ending g (k token) (l (token.relocate seam.place)))
    (hx : seam.Follows ending g x y) :
    seam.Follows ending g
      (Parse.peek >>= fun next => if next.kind = kind then Parse.advance >>= k else x)
      (Parse.peek >>= fun next => if next.kind = kind then Parse.advance >>= l else y) := by
  refine .peek fun cursor joined hinside => ?_
  simp only [seam.image_kind_eq_iff hkind]
  split
  next hnext => exact .advance hinside (hnext ▸ Token.Kind.ne_eof hkind) (hk _)
  next => exact hx hinside

/-- A rule that asks whether a name is that of an array. -/
theorem Agree.ifArray {name : String} {x y x' y' : Parse β} (hinside : seam.Inside cursor joined)
    (hx : seam.Agree ending g (x cursor) (x' joined))
    (hy : seam.Agree ending g (y cursor) (y' joined)) :
    seam.Agree ending g
      ((MonadState.get >>= fun now : Cursor => if now.isArray name then x else y) cursor)
      ((MonadState.get >>= fun now : Cursor => if now.isArray name then x' else y') joined) := by
  -- the two tables answer alike, so the same rule is chosen on both sides
  change seam.Agree ending g ((if cursor.isArray name then x else y) cursor)
    ((if joined.isArray name then x' else y') joined)
  simp only [hinside.arrays]
  split
  · exact hx
  · exact hy

/-- An expected token is taken in, or its absence reported, in both parses. -/
theorem Agree.expect {kind : Token.Kind} (hinside : seam.Inside cursor joined)
    (hkind : kind ≠ .eof) (hsame : (seam.image cursor.peek).kind = kind ↔ cursor.peek.kind = kind) :
    seam.Agree ending (·.relocate seam.place) (Parse.expect kind cursor)
      (Parse.expect kind joined) := by
  rw [Parse.expect_apply, Parse.expect_apply, hinside.peek]
  simp only [hsame]
  split
  next hnext =>
    have hpeek : cursor.peek.kind ≠ .eof := hnext ▸ hkind
    exact .ok (seam.image_of_ne_eof hpeek) (hinside.advance hpeek)
  next => exact .error (revise_unexpected _ _).symm hinside

theorem Follows.expect {kind : Token.Kind} (hkind : kind.isTerminator = false) :
    seam.Follows ending (·.relocate seam.place) (Parse.expect kind) (Parse.expect kind) :=
  fun _ _ hinside => .expect hinside (Token.Kind.ne_eof hkind) (seam.image_kind_eq_iff hkind _)

/-- The end of a statement. -/
theorem Follows.separate {value value' : α} (h : value' = f value) :
    seam.Follows true f (Parse.skipSeparator >>= fun _ => Pure.pure value)
      (Parse.skipSeparator >>= fun _ => Pure.pure value') :=
  fun _ _ hinside => .of_ended h hinside.skipSeparator

/-- Where a line starts after the part, no colon is taken in that is not one of the part. -/
theorem AtLine.skipSeparator (hline : seam.AtLine) :
    seam.Follows ending id Parse.skipSeparator Parse.skipSeparator :=
  fun _ _ hinside => .ok rfl (hinside.skipSeparator.inside hline)

/-- Moving on leaves fewer tokens. -/
theorem Inside.length_advance (h : seam.Inside cursor joined) :
    cursor.advance.tokens.length < cursor.tokens.length :=
  length_rest_lt h.current_kind

/-- By induction on the rounds: a comma is one of the part, so each round is made in both parses. -/
theorem manyWithin_comma_agree (hx : seam.Follows false f x y) (hleads : x.Keeps Leads)
    {limit limit' : Nat} (hinside : seam.Inside cursor joined)
    (hlimit : cursor.tokens.length ≤ limit) (hle : limit ≤ limit') :
    seam.Agree false (List.map f)
      (Parse.manyWithin (·.peekIs (.sym .comma)) (Parse.advance >>= fun _ => x) limit cursor)
      (Parse.manyWithin (·.peekIs (.sym .comma)) (Parse.advance >>= fun _ => y) limit' joined) := by
  -- the limits are beyond the tokens left, so neither run stops because of its limit
  have hlength := hinside.length_advance
  induction limit generalizing cursor joined limit' with
  | zero => omega
  | succ limit ih =>
    obtain ⟨limit', rfl⟩ := Nat.exists_eq_add_one_of_ne_zero (by omega : limit' ≠ 0)
    have hpeek : joined.peekIs (.sym .comma) = cursor.peekIs (.sym .comma) := by
      rw [peekIs, peekIs, hinside.peek]
      exact seam.image_kind_congr (fun kind => decide (kind = .sym .comma)) rfl rfl _
    rw [Parse.manyWithin_succ_apply, Parse.manyWithin_succ_apply, hpeek]
    split
    next hcomma =>
      -- a comma belongs to the part, since what follows the part is a line number or nothing
      have hne : cursor.peek.kind ≠ .eof := by
        rw [of_decide_eq_true hcomma]
        decide
      refine (Agree.advance hinside hne hx).bind fun {_ middle _} hmiddle hinside' => ?_
      have hitem : x cursor.advance = .ok _ middle := hmiddle
      have hle' := (hleads.of_ok hitem).tokens.length_le
      refine (ih hinside' (by omega) (by omega) hinside'.length_advance).bind fun _ hlast => ?_
      exact .ok rfl hlast
    next => exact .ok rfl hinside

/-- A list with commas follows the seam if its items do. -/
theorem Follows.commaList (hx : seam.Follows false f x y) (hleads : x.Keeps Leads) :
    seam.Follows false (List.map f) (Parse.commaList x) (Parse.commaList y) := by
  refine hx.bind fun head => .bind ?_ fun tail => .pure rfl
  intro cursor joined hinside
  exact manyWithin_comma_agree hx hleads hinside (Nat.le_refl _) hinside.length_le

/-- By induction on the rounds, which both parses break off at the same token. -/
theorem iterateWithin_agree {more : Cursor → Bool} {step step' : α → Parse α}
    (hmore : ∀ ⦃cursor joined⦄, seam.Inside cursor joined → more joined = more cursor)
    (hstep : ∀ value, ∀ ⦃cursor joined⦄, seam.Inside cursor joined → more cursor = true →
      seam.Agree false f (step value cursor) (step' (f value) joined))
    (hless : ∀ ⦃cursor last value value'⦄, more cursor = true →
      step value cursor = .ok value' last → last.tokens.length < cursor.tokens.length)
    {limit limit' : Nat} (value : α) (hinside : seam.Inside cursor joined)
    (hlimit : cursor.tokens.length ≤ limit) (hle : limit ≤ limit') :
    seam.Agree false f (Parse.iterateWithin more step limit value cursor)
      (Parse.iterateWithin more step' limit' (f value) joined) := by
  -- as for lists, the induction is on the bound of the part alone, which is the smaller one
  have hlength := hinside.length_advance
  induction limit generalizing cursor joined limit' value with
  | zero => omega
  | succ limit ih =>
    obtain ⟨limit', rfl⟩ := Nat.exists_eq_add_one_of_ne_zero (by omega : limit' ≠ 0)
    rw [Parse.iterateWithin_succ_apply, Parse.iterateWithin_succ_apply, hmore hinside]
    split
    next hgo =>
      refine (hstep value hinside hgo).bind fun {_ middle _} hmiddle hinside' => ?_
      have hlt := hless hgo hmiddle
      exact ih _ hinside' (by omega) (by omega) hinside'.length_advance
    next => exact .ok rfl hinside

/-- A repetition follows the seam if its steps do and take in at least one token each. -/
theorem Follows.iterate {more : Cursor → Bool} {step step' : α → Parse α}
    (hmore : ∀ ⦃cursor joined⦄, seam.Inside cursor joined → more joined = more cursor)
    (hstep : ∀ value, ∀ ⦃cursor joined⦄, seam.Inside cursor joined → more cursor = true →
      seam.Agree false f (step value cursor) (step' (f value) joined))
    (hless : ∀ ⦃cursor last value value'⦄, more cursor = true →
      step value cursor = .ok value' last → last.tokens.length < cursor.tokens.length)
    (value : α) :
    seam.Follows false f (Parse.iterate more step value) (Parse.iterate more step' (f value)) := by
  intro cursor joined hinside
  exact iterateWithin_agree hmore hstep hless value hinside (Nat.le_refl _) hinside.length_le

end Combinators

/-! ## Outcomes up to faults of the part -/

/-- Something is wrong with the part, and the seam is not strict. -/
def Faulty (seam : Seam) : EStateM.Result Diagnostic Cursor α → Prop
  | .ok _ last => seam.strict = false ∧ ¬last.Clean
  | .error _ _ => seam.strict = false

/-- The parsers come to the same outcome from corresponding cursors, or else the part is
faulty. -/
def FollowsOrFaults (seam : Seam) (ending : Bool) (f : α → α) (x y : Parse α) : Prop :=
  ∀ ⦃cursor joined⦄, seam.Inside cursor joined →
    seam.Faulty (x cursor) ∨ seam.Agree ending f (x cursor) (y joined)

section UpToFaults

variable {ending : Bool} {f : α → α} {g : β → β} {x y : Parse α}

theorem Follows.orFaults (h : seam.Follows ending f x y) : seam.FollowsOrFaults ending f x y :=
  fun _ _ hinside => .inr (h hinside)

/-- A fault stays one, whatever comes after it. -/
theorem faulty_of_not_clean (hstrict : seam.strict = false) (hleads : x.Keeps Leads)
    (hclean : ¬cursor.Clean) : seam.Faulty (x cursor) := by
  cases hx : x cursor with
  | ok value last => exact ⟨hstrict, fun hlast => hclean ((hleads.of_ok hx).clean hlast)⟩
  | error diagnostic last => exact hstrict

/-- A fault in the first parser is not mended by the second. -/
theorem Faulty.bind {k : α → Parse β} (hleads : ∀ value, (k value).Keeps Leads)
    (h : seam.Faulty (x cursor)) : seam.Faulty ((x >>= k) cursor) := by
  rw [Parse.bind_apply]
  cases hx : x cursor with
  | ok value last =>
    -- the fault is in the journal already, and the rest of the run keeps it there
    rw [hx] at h
    exact faulty_of_not_clean h.1 (hleads value) h.2
  | error diagnostic last =>
    rw [hx] at h
    exact h

/-- If the first results agree, only the second parser can find a fault. -/
theorem Agree.bindOrFaults {k l : α → Parse β} (hx : seam.Agree false f (x cursor) (y joined))
    (hk : ∀ value, seam.FollowsOrFaults ending g (k value) (l (f value))) :
    seam.Faulty ((x >>= k) cursor) ∨
      seam.Agree ending g ((x >>= k) cursor) ((y >>= l) joined) := by
  rw [Parse.bind_apply, Parse.bind_apply]
  generalize x cursor = outcome at hx
  generalize y joined = outcome' at hx
  cases hx with
  | ok hvalue hinside =>
    subst hvalue
    exact hk _ hinside
  | past hending => cases hending
  | error hdiagnostic hinside => exact .inr (.error hdiagnostic hinside)

/-- Nothing can go astray in the first part, so the second one decides. -/
theorem FollowsOrFaults.andThen {k l : α → Parse β} (hx : seam.Follows false f x y)
    (hk : ∀ value, seam.FollowsOrFaults ending g (k value) (l (f value))) :
    seam.FollowsOrFaults ending g (x >>= k) (y >>= l) :=
  fun _ _ hinside => (hx hinside).bindOrFaults hk

/-- Two parsers one behind the other follow the seam, unless one of them finds a fault. -/
theorem FollowsOrFaults.bind {k l : α → Parse β} (hx : seam.FollowsOrFaults false f x y)
    (hleads : ∀ value, (k value).Keeps Leads)
    (hk : ∀ value, seam.FollowsOrFaults ending g (k value) (l (f value))) :
    seam.FollowsOrFaults ending g (x >>= k) (y >>= l) :=
  fun _ _ hinside => (hx hinside).elim (fun hfaulty => .inl (hfaulty.bind hleads))
    fun hagree => hagree.bindOrFaults hk

/-- A function that commutes with the correspondence may be applied to the results. -/
theorem FollowsOrFaults.map {h : α → β} (hx : seam.FollowsOrFaults ending f x y)
    (hcomm : ∀ value, h (f value) = g (h value)) :
    seam.FollowsOrFaults ending g (h <$> x) (h <$> y) := by
  intro cursor joined hinside
  rw [map_eq_pure_bind, map_eq_pure_bind]
  rcases hx hinside with hfaulty | hagree
  · exact .inl (hfaulty.bind fun _ => .pure growth_leads.toDrift _)
  · refine .inr ?_
    rw [Parse.bind_apply, Parse.bind_apply]
    generalize x cursor = outcome at hagree
    generalize y joined = outcome' at hagree
    cases hagree with
    | ok hvalue hlast => exact .ok (by rw [hvalue, hcomm]) hlast
    | past hending hvalue hlast => exact .past hending (by rw [hvalue, hcomm]) hlast
    | error hdiagnostic hlast => exact .error hdiagnostic hlast

end UpToFaults

/-- What a step over statements does in the joined parse. -/
def StepFollows (seam : Seam) (step : Cursor → Option Statement × Cursor) : Prop :=
  ∀ ⦃cursor joined⦄, seam.Inside cursor joined →
    (seam.strict = false ∧ ¬(step cursor).2.Clean) ∨
      ((step joined).1 = (step cursor).1.map (·.relocate seam.place) ∧
        seam.Ended (step cursor).2 (step joined).2)

end Seam

end LineBasic
