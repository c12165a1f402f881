import LineBasic.Proofs.Grammar.Following
import LineBasic.Proofs.Token.Lines

/-!
# Lines are parsed on their own

Recovery from a fault stops at the next line number, so the lines of a listing do not disturb
each other. A listing of two parts, of which the second starts with a line number, parses as the
first part alone and then the second part alone, at its own place and with the arrays that the
first declared (`parse_lineFeed`). A fault at the end of the first part is then a fault at the
line number after it. Only a loop can reach across: either the first part has none, or it is
well-formed.
-/

namespace LineBasic

/-- The listing held in memory as bytes, some arrays being declared before it. -/
def parseAfter (arrays : List (String × Location)) (bytes : List UInt8) : Listing :=
  let (steps, final) := Grammar.steps (.ofTokens (tokenize bytes) arrays)
  ⟨(Stream.ofDelivery (.ofBytes bytes)).scans, steps, final⟩

example (bytes : List UInt8) : parseAfter [] bytes = parse bytes := rfl

/-- The diagnostic with another token in the place of the end token that it is about. -/
def Diagnostic.retarget (token : Token) (diagnostic : Diagnostic) : Diagnostic :=
  match diagnostic.cause with
  | .unexpected expected .eof => ⟨.unexpected expected token.kind, token.loc⟩
  | .noJump .eof => ⟨.noJump token.kind, token.loc⟩
  | .noOperand .eof => ⟨.noOperand token.kind, token.loc⟩
  | _ => diagnostic

namespace Seam

/-- Where nothing follows the part, a diagnostic only changes its place. -/
theorem revise_of_tail_nil {seam : Seam} (h : seam.tail = []) (diagnostic : Diagnostic) :
    seam.revise diagnostic = diagnostic.relocate seam.place := by
  unfold revise
  rw [image_of_tail_nil h]
  split <;> simp [Diagnostic.relocate, Token.endAt, *]

/-- Where the places stay, a diagnostic only changes if it is about the end. -/
theorem revise_of_place_id (seam : Seam) {first : Token} {rest : List Token}
    (hplace : seam.place = id) (htail : seam.tail = first :: rest) (diagnostic : Diagnostic) :
    seam.revise diagnostic = diagnostic.retarget first := by
  have himage : seam.image (.endAt diagnostic.loc) = first := by
    have heof : (Token.endAt diagnostic.loc).kind = .eof := rfl
    rw [image, if_pos heof, htail]
    rfl
  unfold revise Diagnostic.retarget
  rw [himage, hplace]
  rfl

end Seam

namespace Grammar

open Cursor

/-- A parse at other places, after other diagnostics, with nothing after it: the statements and
the diagnostics come to stand at those places. -/
theorem steps_relocate (place : Location → Location) (cursor moved : Cursor)
    (hbody : ∀ token ∈ cursor.tokens, token.kind ≠ .eof) (hclean : cursor.diagnostics = [])
    (htokens : moved.tokens = cursor.tokens.map (·.relocate place))
    (hfinish : moved.finish = place cursor.finish)
    (harrays : ∀ name, moved.isArray name = cursor.isArray name) :
    (steps moved).1.filterMap (·.statement) =
        ((steps cursor).1.filterMap (·.statement)).map (·.relocate place) ∧
      (steps moved).2.diagnostics =
        moved.diagnostics ++ (steps cursor).2.diagnostics.map (·.relocate place) := by
  -- nothing follows, so the seam may be strict: no loop can reach further than the end
  let seam : Seam := ⟨place, [], by simp, moved.diagnostics, true⟩
  have htracks : seam.Tracks cursor moved :=
    ⟨by rw [htokens, List.append_nil], fun _ => hfinish, hbody, harrays, by simp [hclean, seam],
      fun _ => .inl rfl, .inl (by simp [Seam.AtLine, seam])⟩
  rcases steps_follows htracks with ⟨hstrict, -⟩ | ⟨behind, hbehind, hempty, hlast, hstatements⟩
  · cases hstrict
  · have heof : behind.current.kind = .eof := by
      rw [Cursor.current, hbehind.tokens, hempty]
      rfl
    have hrevise : seam.revise = (·.relocate place) := funext (Seam.revise_of_tail_nil rfl)
    rw [steps_of_eof heof] at hlast hstatements
    refine ⟨hstatements.trans (List.append_nil _), ?_⟩
    rw [hlast, hbehind.diagnostics, hrevise]

/-- The condition on a part, as a seam has it. -/
theorem exists_strict {part : List Token} {last : Cursor}
    (h : (∀ token ∈ part, token.kind ≠ .word .for_) ∨ last.Clean) :
    ∃ strict : Bool, (strict = true → ∀ token ∈ part, token.kind ≠ .word .for_) ∧
      (strict = false → last.Clean) := by
  rcases h with h | h
  · exact ⟨true, fun _ => h, Bool.noConfusion⟩
  · exact ⟨false, Bool.noConfusion, fun _ => h⟩

/-- Once a part is parsed, the parse stands at what follows it, with the arrays that the part
declared and with its diagnostics. A loop must not reach across, and what follows starts a line
unless no statement of the part can hold others. -/
theorem exists_steps_behind {part : List Token} {first : Token} (rest : List Token)
    (partFinish finish : Location) (hpart : ∀ token ∈ part, token.kind ≠ .eof)
    (hfirst : first.kind = .lineNo ∨ first.kind = .sym .colon)
    (hwithin : (∀ token ∈ part, token.kind ≠ .word .for_) ∨
      (steps (.start part partFinish [])).2.Clean)
    (hflat : first.kind = .lineNo ∨
      ∀ token ∈ part, token.kind ≠ .word .if_ ∧ token.kind ≠ .word .for_) :
    ∃ behind : Cursor, behind.tokens = first :: rest ∧ behind.finish = finish ∧
      (∀ name, behind.isArray name = (steps (.start part partFinish [])).2.isArray name) ∧
      behind.diagnostics =
        (steps (.start part partFinish [])).2.diagnostics.map (·.retarget first) ∧
      (steps (.start (part ++ first :: rest) finish [])).2 = (steps behind).2 ∧
      (steps (.start (part ++ first :: rest) finish [])).1.filterMap (·.statement) =
        (steps (.start part partFinish [])).1.filterMap (·.statement) ++
          (steps behind).1.filterMap (·.statement) := by
  obtain ⟨strict, hloops, hclean⟩ := exists_strict hwithin
  let seam : Seam := ⟨id, first :: rest, by simpa using hfirst, [], strict⟩
  let alone : Cursor := .start part partFinish []
  let joined : Cursor := .start (part ++ first :: rest) finish []
  have htracks : seam.Tracks alone joined := by
    refine ⟨?_, by simp [seam], hpart, fun _ => rfl, rfl, fun hstrict => .inr (hloops hstrict), ?_⟩
    · simp [alone, joined, seam, Cursor.start]
    · exact hflat.imp_left fun hline => by simpa [Seam.AtLine, seam] using hline
  rcases steps_follows htracks with
    ⟨hstrict, hnot⟩ | ⟨behind, hbehind, hempty, hlast, hstatements⟩
  · -- a seam that is not strict comes with a part that is well-formed
    exact absurd (hclean hstrict) hnot
  refine ⟨behind, ?_, ?_, hbehind.arrays, ?_, hlast, ?_⟩
  · rw [hbehind.tokens, hempty]
    rfl
  · -- no step changes where the listing ends
    have hfinish := ((steps_stepsTo behind).keeps growth_leads).finish
    have hfinish' := ((steps_stepsTo joined).keeps growth_leads).finish
    rw [← hlast] at hfinish
    rw [← hfinish]
    exact hfinish'
  · -- the places of the part stay, and its end is now what follows it
    have hrevise := funext (seam.revise_of_place_id rfl rfl)
    rw [hbehind.diagnostics, hrevise]
    rfl
  · rw [hstatements]
    simp [seam, alone]

end Grammar

section Parts

variable {left right : List UInt8} {first : Token}

/-- Once the first part is parsed, the parse stands at the second part, with the arrays that the
first part declared and with its diagnostics. -/
theorem exists_behind {body : List Token} {finish : Location}
    (hright : tokenize right = body ++ [.endAt finish]) (hfirst : body.head? = some first)
    (hline : first.kind = .lineNo)
    (h : (∀ token ∈ tokenize left, token.kind ≠ .word .for_) ∨ (parse left).isClean = true) :
    ∃ behind : Cursor,
      behind.tokens = body.map (·.relocate (.down (1 + left.count 0x0A))) ∧
      behind.finish = finish.down (1 + left.count 0x0A) ∧
      (∀ name, behind.isArray name = (parse left).final.isArray name) ∧
      behind.diagnostics = (parse left).diagnostics.map
        (·.retarget (first.relocate (.down (1 + left.count 0x0A)))) ∧
      (parse (left ++ 0x0A :: right)).final = (Grammar.steps behind).2 ∧
      (parse (left ++ 0x0A :: right)).program =
        (parse left).program ++ (Grammar.steps behind).1.filterMap (·.statement) := by
  obtain ⟨leftBody, leftFinish, hleft, hleftBody, -⟩ := tokenize_eq_body_append left
  obtain ⟨rest, rfl⟩ := List.head?_eq_some_iff.1 hfirst
  generalize hplace : Location.down (1 + left.count 0x0A) = place
  have hjoined : tokenize (left ++ 0x0A :: right) =
      (leftBody ++ first.relocate place :: rest.map (·.relocate place)) ++
        [.endAt (place finish)] := by
    rw [tokenize_lineFeed, hleft, hright, hplace, List.dropLast_concat, List.map_append,
      List.append_assoc]
    rfl
  obtain ⟨hprogram, hfinal⟩ := parse_of_tokenize hleft
  obtain ⟨hprogram', hfinal'⟩ := parse_of_tokenize hjoined
  rw [Listing.diagnostics, hprogram', hfinal', hprogram, hfinal]
  refine Grammar.exists_steps_behind _ _ _ hleftBody (.inl hline)
    (h.imp (fun hloops token htoken => ?_) fun hclean => ?_) (.inl hline)
  · exact hloops token (hleft ▸ List.mem_append_left _ htoken)
  · exact hfinal ▸ Cursor.clean_iff.2 (List.isEmpty_iff.1 hclean)

/-- A listing of two parts, of which the second starts with a line number, parses as the two
parts alone, provided that the first part starts no loop or is well-formed. -/
theorem parse_lineFeed (left right : List UInt8) (first : Token)
    (hfirst : (tokenize right).head? = some first) (hline : first.kind = .lineNo)
    (h : (∀ token ∈ tokenize left, token.kind ≠ .word .for_) ∨ (parse left).isClean = true) :
    (parse (left ++ 0x0A :: right)).program =
        (parse left).program ++
          (parseAfter (parse left).final.arrays right).program.map
            (·.relocate (.down (1 + left.count 0x0A))) ∧
      (parse (left ++ 0x0A :: right)).diagnostics =
        (parse left).diagnostics.map
            (·.retarget (first.relocate (.down (1 + left.count 0x0A)))) ++
          (parseAfter (parse left).final.arrays right).diagnostics.map
            (·.relocate (.down (1 + left.count 0x0A))) := by
  obtain ⟨body, finish, hright, hbody, -⟩ := tokenize_eq_body_append right
  -- the first token is not the end token, since it is a line number
  have hhead : body.head? = some first := by
    cases body with
    | nil =>
      rw [hright, List.nil_append, List.head?_cons, Option.some.injEq] at hfirst
      rw [← hfirst] at hline
      cases hline
    | cons token rest =>
      rw [hright] at hfirst
      exact hfirst
  obtain ⟨behind, htokens, hfinish, harrays, hdiagnostics, hfinal, hprogram⟩ :=
    exists_behind hright hhead hline h
  have halone : Cursor.ofTokens (tokenize right) (parse left).final.arrays =
      .start body finish (parse left).final.arrays := by
    rw [hright, Cursor.ofTokens_append]
  obtain ⟨hstatements, hsteps⟩ := Grammar.steps_relocate (.down (1 + left.count 0x0A))
    (.start body finish (parse left).final.arrays) behind hbody rfl htokens hfinish harrays
  constructor
  · rw [hprogram, hstatements, ← halone]
    rfl
  · rw [Listing.diagnostics, hfinal, hsteps, hdiagnostics, ← halone]
    rfl

/-- The theorem at a first part that breaks off: its diagnostic is about the line number after
it. -/
theorem parse_lineFeed_cut :
    (parse (Utf8.encode "10 DIM A(3)\n20 A(1) =" ++ 0x0A :: Utf8.encode "30 A = )")).diagnostics =
      [⟨.noOperand .lineNo, ⟨3, 1⟩⟩, ⟨.noOperand (.sym .rparen), ⟨3, 8⟩⟩] := by
  have h := parse_lineFeed (Utf8.encode "10 DIM A(3)\n20 A(1) =") (Utf8.encode "30 A = )")
    ⟨.lineNo, "30", ⟨1, 1⟩⟩ (by decide +kernel) rfl (.inl (by decide +kernel))
  rw [h.2]
  decide +kernel

end Parts

end LineBasic
