import LineBasic.Proofs.LineIsolation

/-!
# Statements are parsed on their own

Recovery from a fault also stops at the next colon. Tokens with a colon between them parse as those
before it alone, with the end in the place of the colon, and then those after it, with the arrays
that the first declared (`parse_colon`). A fault at the end of the first tokens is then a fault at
the colon. Only a statement that holds others goes on behind a colon, so none may start before it.

Which rule takes in the colon depends on how the last statement before it ends: the statement
itself, recovery, or a step of its own. After that it makes no difference.
-/

namespace LineBasic

/-- The statements that tokens parse as, of which the last is the end token, and where the parse
ends. Some arrays are declared before it. -/
def parseTokens (arrays : List (String × Location)) (tokens : List Token) :
    List Statement × Cursor :=
  let (steps, final) := Grammar.steps (.ofTokens tokens arrays)
  (steps.filterMap (·.statement), final)

theorem parseTokens_append (arrays : List (String × Location)) (body : List Token)
    (finish : Location) :
    parseTokens arrays (body ++ [.endAt finish]) =
      ((Grammar.steps (.start body finish arrays)).1.filterMap (·.statement),
        (Grammar.steps (.start body finish arrays)).2) := by
  rw [parseTokens, Cursor.ofTokens_append]

/-- A colon is not the last of the tokens of a listing. -/
theorem exists_append_of_colon {bytes : List UInt8} {left right : List Token} {colon : Token}
    (h : tokenize bytes = left ++ colon :: right) (hcolon : colon.kind = .sym .colon) :
    ∃ rest finish, right = rest ++ [.endAt finish] ∧
      ∀ token ∈ left ++ colon :: rest, token.kind ≠ .eof := by
  obtain ⟨body, finish, htokens, hbody, -⟩ := tokenize_eq_body_append bytes
  rw [htokens] at h
  rcases List.eq_nil_or_concat right with rfl | ⟨rest, last, rfl⟩
  · obtain ⟨-, hlast⟩ := List.append_inj' h rfl
    cases hlast
    cases hcolon
  · rw [List.concat_eq_append, ← List.cons_append, ← List.append_assoc] at h
    obtain ⟨rfl, hlast⟩ := List.append_inj' h rfl
    exact ⟨rest, finish, by rw [List.concat_eq_append, hlast], hbody⟩

/-- Tokens with a colon between them parse as those before the colon and then those after it, if
neither a loop nor an `IF` starts before it. -/
theorem parse_colon (bytes : List UInt8) (left right : List Token) (colon : Token)
    (htokens : tokenize bytes = left ++ colon :: right) (hcolon : colon.kind = .sym .colon)
    (hleft : ∀ token ∈ left, token.kind ≠ .word .if_ ∧ token.kind ≠ .word .for_) :
    let first := parseTokens [] (left ++ [.endAt colon.loc])
    let second := parseTokens first.2.arrays right
    (parse bytes).program = first.1 ++ second.1 ∧
      (parse bytes).diagnostics =
        first.2.diagnostics.map (·.retarget colon) ++ second.2.diagnostics := by
  obtain ⟨rest, finish, rfl, hbody⟩ := exists_append_of_colon htokens hcolon
  obtain ⟨hleftBody, hrestBody⟩ := List.forall_mem_append.1 hbody
  -- the tokens before the colon come to the same statements with the rest behind them
  obtain ⟨behind, hbehind, hfinish, harrays, hdiagnostics, hlast, hstatements⟩ :=
    Grammar.exists_steps_behind rest colon.loc finish hleftBody (.inr hcolon)
      (.inl fun token htoken => (hleft token htoken).2) (.inr hleft)
  rw [← List.cons_append, ← List.append_assoc] at htokens
  obtain ⟨hprogram, hfinal⟩ := parse_of_tokenize htokens
  rw [Listing.diagnostics, hprogram, hfinal, hlast, hstatements, parseTokens_append]
  dsimp only
  rw [parseTokens_append]
  generalize Grammar.steps (.start left colon.loc []) = first at *
  -- the colon is a step of its own, and the tokens after it are parsed where they stand
  have hcurrent : behind.current.kind = .sym .colon := by
    rw [Cursor.current, hbehind]
    exact hcolon
  obtain ⟨hstatements', hlast'⟩ := Grammar.steps_of_colon hcurrent
  have hadvance : behind.advance.tokens = rest.map (·.relocate id) := by
    rw [Cursor.tokens_advance, Cursor.rest, hbehind]
    simp
  obtain ⟨hright, hright'⟩ := Grammar.steps_relocate id (.start rest finish first.2.arrays)
    behind.advance (List.forall_mem_cons.1 hrestBody).2 rfl hadvance hfinish harrays
  constructor
  · rw [hstatements', hright]
    simp
  · have hsame : behind.advance.diagnostics = behind.diagnostics := rfl
    rw [hlast', hright', hsame, hdiagnostics]
    simp

/-- The theorem at a statement that breaks off before a colon, behind which an array is used that
was declared before it. -/
theorem parse_colon_cut :
    (parse (Utf8.encode "10 DIM A(3) : X = A( : A(1) = 2 : Y = )")).diagnostics =
      [⟨.noOperand (.sym .colon), ⟨1, 22⟩⟩, ⟨.noOperand (.sym .rparen), ⟨1, 39⟩⟩] := by
  have h := parse_colon (Utf8.encode "10 DIM A(3) : X = A( : A(1) = 2 : Y = )")
    ((tokenize (Utf8.encode "10 DIM A(3) : X = A( : A(1) = 2 : Y = )")).take 11)
    ((tokenize (Utf8.encode "10 DIM A(3) : X = A( : A(1) = 2 : Y = )")).drop 12)
    ⟨.sym .colon, ":", ⟨1, 22⟩⟩ (by decide +kernel) rfl (by decide +kernel)
  exact h.2.trans (by decide +kernel)

end LineBasic
