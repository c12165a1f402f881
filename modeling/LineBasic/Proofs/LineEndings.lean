import LineBasic.Proofs.SameTokens
import Mathlib.Data.List.Basic

/-!
# Line endings

Lines may end with a carriage return and a line feed or with a line feed alone: tokens and places
are the same, and so is everything made of them (`tokenize_withReturns`).

A carriage return before a line feed ends the last token of its line as the line feed would. It
takes up a column, but the line feed behind it starts the columns over, so no place behind it moves.
-/

namespace LineBasic

/-! ## Carriage returns -/

/-- Bytes with a carriage return in front of every line feed. -/
def withReturns (bytes : List UInt8) : List UInt8 :=
  bytes.flatMap fun b => if b = 0x0A then [0x0D, 0x0A] else [b]

theorem withReturns_append (left right : List UInt8) :
    withReturns (left ++ right) = withReturns left ++ withReturns right :=
  List.flatMap_append

/-- A line on its own gets no carriage return. -/
theorem withReturns_of_not_mem {line : List UInt8} (h : 0x0A ∉ line) : withReturns line = line := by
  have hkept : ∀ b ∈ line, (if b = 0x0A then [0x0D, 0x0A] else [b]) = [b] := by
    intro b hb
    exact if_neg fun heq : b = 0x0A => h (heq ▸ hb)
  rw [withReturns, List.flatMap_congr hkept, List.flatMap_singleton']

/-- The line feed that ends the first line gets one. -/
theorem withReturns_lineFeed {line : List UInt8} (h : 0x0A ∉ line) (rest : List UInt8) :
    withReturns (line ++ 0x0A :: rest) = line ++ 0x0D :: 0x0A :: withReturns rest := by
  rw [withReturns_append, withReturns_of_not_mem h]
  rfl

/-- A carriage return in front of a line feed moves nothing behind the line feed. -/
theorem Location.next_return_lineFeed (loc : Location) :
    (loc.next 0x0D).next 0x0A = loc.next 0x0A :=
  rfl

/-! ## Lines of a stream -/

namespace Stream

/-- A line feed right where the line is opened is skipped. -/
theorem tokens_lineFeed (loc : Location) (rest : List UInt8) :
    (⟨0x0A :: rest, loc, true, none⟩ : Stream).tokens =
      (⟨rest, loc.next 0x0A, true, none⟩ : Stream).tokens := by
  have hempty : (⟨[], loc, true, none⟩ : Stream).next.token.kind = .eof := rfl
  have htokens := (⟨[], loc, true, none⟩ : Stream).tokens_extended
    (show Byte.isLineBreak 0x0A = true by decide) rfl rest
  rw [tokens_of_eof hempty] at htokens
  exact htokens

/-- Carriage returns in front of the line feeds change no token of a stream. -/
theorem tokens_withReturns (bytes : List UInt8) (loc : Location) (fresh : Bool) :
    (⟨withReturns bytes, loc, fresh, none⟩ : Stream).tokens =
      (⟨bytes, loc, fresh, none⟩ : Stream).tokens := by
  -- line after line; the last one ends without a line feed
  induction hlength : bytes.length using Nat.strongRecOn generalizing bytes loc fresh with
  | ind length ih =>
    by_cases hmem : 0x0A ∈ bytes
    · obtain ⟨line, rest, rfl, hline⟩ := List.eq_append_cons_of_mem hmem
      have hreturn := (⟨line, loc, fresh, none⟩ : Stream).tokens_extended
        (show Byte.isLineBreak 0x0D = true by decide) rfl (0x0A :: withReturns rest)
      have hfeed := (⟨line, loc, fresh, none⟩ : Stream).tokens_extended
        (show Byte.isLineBreak 0x0A = true by decide) rfl rest
      have hrest := ih rest.length (by simp [← hlength]; omega) rest
        ((loc.after line).next 0x0A) true rfl
      rw [withReturns_lineFeed hline]
      refine hreturn.trans (Eq.trans ?_ hfeed.symm)
      rw [newLine, tokens_lineFeed, Location.next_return_lineFeed, hrest]
      rfl
    · rw [withReturns_of_not_mem hmem]

end Stream

/-- A listing whose lines end with a carriage return and a line feed has the same tokens, at the
same places, as with line feeds alone. So the same program is found in it, it is compiled to the
same C text, the same is wrong with it, and the same is logged. -/
theorem tokenize_withReturns (bytes : List UInt8) :
    tokenize (withReturns bytes) = tokenize bytes ∧ ∀ style,
      (compile style (withReturns bytes)).program = (compile style bytes).program ∧
      (compile style (withReturns bytes)).output = (compile style bytes).output ∧
      (compile style (withReturns bytes)).diagnostics = (compile style bytes).diagnostics ∧
      (compile style (withReturns bytes)).records = (compile style bytes).records := by
  have htokens : (Stream.ofDelivery (.ofBytes (withReturns bytes))).tokens =
      (Stream.ofDelivery (.ofBytes bytes)).tokens := by
    rw [Stream.ofDelivery_ofBytes, Stream.ofDelivery_ofBytes]
    exact Stream.tokens_withReturns bytes .start true
  refine ⟨htokens, fun style => ?_⟩
  obtain ⟨hprogram, houtput, hdiagnostics⟩ := Compilation.ofDelivery_congr htokens style
  -- no source breaks here, so there is no warning between the records
  obtain ⟨before, after, hplain, hreturns⟩ := Compilation.exists_records_eq style htokens rfl
  refine ⟨hprogram, houtput, hdiagnostics, ?_⟩
  rw [compile, compile, hplain, hreturns]
  exact congrArg (· ++ after) (List.append_nil before)

end LineBasic
