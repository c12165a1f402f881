import LineBasic.Compilation
import LineBasic.Proofs.Token.Lines

/-!
# Listings with the same tokens

What is found in a listing and what it is compiled to depend on its source through the tokens only
(`Compilation.ofDelivery_congr`), and so does what is logged, except that a source that breaks off
adds one warning to it (`Compilation.exists_records_eq`).

The warning is part of the step in which scanning looks beyond the last byte, and where it stands
among the records of the parser depends on how far the parser has asked for tokens by then. But the
records are put together by numbers of steps, in which the two sources agree, so one more record in
one of the steps is one more record of the whole.
-/

namespace LineBasic

/-! ## What is found and what is written -/

section Congr

variable {delivery other : Delivery}
  (h : (Stream.ofDelivery delivery).tokens = (Stream.ofDelivery other).tokens)

include h

/-- The steps and the cursor behind them depend on the tokens alone. -/
theorem Listing.ofDelivery_congr :
    (Listing.ofDelivery delivery).steps = (Listing.ofDelivery other).steps ∧
      (Listing.ofDelivery delivery).final = (Listing.ofDelivery other).final := by
  have hsteps := congrArg (fun tokens => Grammar.steps (.ofTokens tokens [])) h
  exact ⟨congrArg Prod.fst hsteps, congrArg Prod.snd hsteps⟩

/-- Sources with the same tokens hold the same program, are compiled to the same C text, and the
same is wrong with them. -/
theorem Compilation.ofDelivery_congr (style : Style) :
    (Compilation.ofDelivery style delivery).program =
        (Compilation.ofDelivery style other).program ∧
      (Compilation.ofDelivery style delivery).output =
        (Compilation.ofDelivery style other).output ∧
      (Compilation.ofDelivery style delivery).diagnostics =
        (Compilation.ofDelivery style other).diagnostics := by
  obtain ⟨hsteps, hfinal⟩ := Listing.ofDelivery_congr h
  refine ⟨congrArg (List.filterMap Step.statement) hsteps, ?_, congrArg Cursor.diagnostics hfinal⟩
  exact congrArg (fun steps => style.wrap (steps.foldl (Step.writeTo style) "")) hsteps

end Congr

/-! ## The records of a scan -/

/-- What is logged of a token: the token, unless it is the end. -/
def Token.records (token : Token) : List Record :=
  if token.kind = .eof then [] else [token.record]

/-- The record of a fault comes before those of the token. -/
theorem Scan.records_eq (scan : Scan) :
    scan.records = (scan.fault.map faultRecord).toList ++ scan.token.records := rfl

namespace Stream

/-- The stream of a source with the same bytes that does not break. -/
def unbroken (stream : Stream) : Stream :=
  { stream with fault := none }

@[simp]
theorem unbroken_settled (stream : Stream) : stream.settled.unbroken = stream.unbroken := by
  unfold settled
  split <;> rfl

/-- A break of the source changes neither the next token nor what is left behind it. -/
theorem next_unbroken (stream : Stream) :
    stream.unbroken.next = ⟨stream.next.token, none, stream.next.rest.unbroken⟩ := by
  have hopens : stream.unbroken.opensLine = stream.opensLine := rfl
  have hahead : stream.unbroken.ahead = stream.ahead := rfl
  unfold next
  rw [hopens, hahead]
  dsimp only
  split
  · rw [unbroken_settled, settled_of_fault rfl, noticed]
    exact congrArg (Scan.mk _ · _) (ite_self none)
  · rw [unbroken_settled, settled_of_fault rfl, noticed]
    exact congrArg (Scan.mk _ · _) (ite_self none)

/-- A fault of the source changes none of the tokens. -/
@[simp]
theorem tokens_unbroken (stream : Stream) : stream.unbroken.tokens = stream.tokens := by
  have htoken (stream : Stream) : stream.unbroken.next.token = stream.next.token := by
    rw [next_unbroken]
  induction stream using Stream.induction with
  | last stream hend =>
    rw [tokens_of_eof hend, tokens_of_eof (by rwa [htoken]), htoken]
  | step stream hend ih =>
    rw [tokens_of_ne_eof hend, tokens_of_ne_eof (by rwa [htoken]), htoken, ← ih, next_unbroken]

/-- The next step either looks beyond the last byte, and notices the break, or leaves it for later.
The step that meets the end looks beyond the last byte. -/
theorem fault_next (stream : Stream) :
    stream.next.fault = stream.fault ∧ stream.next.rest.fault = none ∨
      stream.next.fault = none ∧ stream.next.rest.fault = stream.fault ∧
        stream.next.token.kind ≠ .eof := by
  unfold next
  dsimp only
  split
  · exact .inl ⟨rfl, rfl⟩
  next lexeme hlexeme =>
    dsimp only
    unfold noticed settled
    split
    · exact .inl ⟨rfl, rfl⟩
    · exact .inr ⟨rfl, rfl, Lexeme.first?_kind_ne_eof hlexeme⟩

/-- The steps of a scan log their tokens, and in one of them the break of the source, if it
breaks. -/
theorem exists_records_eq (stream : Stream) :
    ∃ before record after, stream.tokens.map Token.records = before ++ record :: after ∧
      stream.scans.map Scan.records =
        before ++ ((stream.fault.map faultRecord).toList ++ record) :: after := by
  induction stream using Stream.induction with
  | last stream hend =>
    obtain ⟨hfault, -⟩ | ⟨-, -, hne⟩ := stream.fault_next
    · refine ⟨[], stream.next.token.records, [], by rw [tokens_of_eof hend]; rfl, ?_⟩
      rw [scans_eq, if_pos hend, List.map_singleton, Scan.records_eq, hfault]
      rfl
    · exact absurd hend hne
  | step stream hend ih =>
    obtain ⟨before, record, after, htokens, hscans⟩ := ih
    rw [tokens_of_ne_eof hend, scans_eq, if_neg hend, List.map_cons, List.map_cons, htokens,
      hscans, Scan.records_eq]
    obtain ⟨hfault, hrest⟩ | ⟨hfault, hrest, -⟩ := stream.fault_next
    · -- the break is noticed in this step and in none after it
      rw [hfault, hrest]
      exact ⟨[], stream.next.token.records, before ++ record :: after, rfl, rfl⟩
    · rw [hfault, hrest]
      exact ⟨stream.next.token.records :: before, record, after, rfl, rfl⟩

end Stream

/-! ## The log of a listing -/

namespace Listing

/-- The log depends on the records of the scans alone. -/
theorem weave_congr {scans other : List Scan} (h : scans.map Scan.records = other.map Scan.records)
    (entries : List Entry) : weave scans entries = weave other entries := by
  have hlength : scans.length = other.length := by simpa using congrArg List.length h
  induction entries generalizing scans other with
  | nil =>
    rw [weave, weave, List.flatMap_def, List.flatMap_def, h]
  | cons entry entries ih =>
    have htake := congrArg (List.take (other.length - (entry.left - 1))) h
    have hdrop := congrArg (List.drop (other.length - (entry.left - 1))) h
    rw [← List.map_take, ← List.map_take] at htake
    rw [← List.map_drop, ← List.map_drop] at hdrop
    simp only [weave, hlength, List.flatMap_def, htake]
    rw [ih hdrop (by simp [hlength])]

/-- More records in one of the steps of a scan are more records in the log. -/
theorem exists_weave_eq {scans other : List Scan} {more record : List Record}
    {before after : List (List Record)}
    (h : scans.map Scan.records = before ++ record :: after)
    (hother : other.map Scan.records = before ++ (more ++ record) :: after)
    (entries : List Entry) :
    ∃ front back, weave scans entries = front ++ back ∧
      weave other entries = front ++ more ++ back := by
  have hlength : other.length = scans.length := by
    have hscans := congrArg List.length h
    have hothers := congrArg List.length hother
    simp only [List.length_map, List.length_append, List.length_cons] at hscans hothers
    omega
  induction entries generalizing scans other before with
  | nil =>
    refine ⟨before.flatten, record ++ after.flatten, ?_, ?_⟩
    · rw [weave, List.flatMap_def, h, List.flatten_append, List.flatten_cons]
    · rw [weave, List.flatMap_def, hother, List.flatten_append, List.flatten_cons,
        List.append_assoc, List.append_assoc]
  | cons entry entries ih =>
    have htake (scans : List Scan) (count : Nat) :
        (scans.take count).flatMap Scan.records =
          ((scans.map Scan.records).take count).flatten := by
      rw [List.flatMap_def, List.map_take]
    simp only [weave, hlength]
    generalize scans.length - (entry.left - 1) = due
    -- the step with more records has been made before the event, or is made later
    rcases Nat.lt_or_ge before.length due with hdue | hdue
    · obtain ⟨count, rfl⟩ : ∃ count, due = before.length + (count + 1) :=
        ⟨due - before.length - 1, by omega⟩
      have hrest : weave (other.drop (before.length + (count + 1))) entries =
          weave (scans.drop (before.length + (count + 1))) entries := by
        refine weave_congr ?_ _
        rw [List.map_drop, List.map_drop, h, hother, List.drop_length_add_append,
          List.drop_length_add_append]
        rfl
      refine ⟨before.flatten, record ++ (after.take count).flatten ++ entry.event.record ::
        weave (scans.drop (before.length + (count + 1))) entries, ?_, ?_⟩
      · rw [htake, h, List.take_length_add_append]
        simp
      · rw [htake, hother, hrest, List.take_length_add_append]
        simp
    · have hdrop (records : List Record) :
          (before ++ records :: after).drop due = before.drop due ++ records :: after :=
        List.drop_append_of_le_length hdue
      obtain ⟨front, back, hscans, hothers⟩ := @ih (scans.drop due) (other.drop due)
        (before.drop due) (by rw [List.map_drop, h, hdrop]) (by rw [List.map_drop, hother, hdrop])
        (by simp [hlength])
      refine ⟨(before.take due).flatten ++ entry.event.record :: front, back, ?_, ?_⟩
      · rw [htake, h, List.take_append_of_le_length hdue, hscans]
        simp
      · rw [htake, hother, List.take_append_of_le_length hdue, hothers]
        simp

end Listing

/-- A source that breaks off is logged as one with the same tokens that does not, with one warning
among the records. -/
theorem Compilation.exists_records_eq {delivery other : Delivery} (style : Style)
    (h : (Stream.ofDelivery delivery).tokens = (Stream.ofDelivery other).tokens)
    (hother : other.fault = none) :
    ∃ before after, (Compilation.ofDelivery style other).records = before ++ after ∧
      (Compilation.ofDelivery style delivery).records =
        before ++ (delivery.fault.map faultRecord).toList ++ after := by
  have hfault : (Stream.unopened other).fault = none := hother
  have hunopened : (Stream.ofDelivery other).fault = none ∧ other.records = [] := by
    rw [Stream.ofDelivery, Stream.settled_of_fault hfault, Delivery.records, Stream.noticed, hfault,
      ite_self]
    exact ⟨rfl, rfl⟩
  obtain ⟨front, record, back, hplain, hbroken⟩ := (Stream.ofDelivery delivery).exists_records_eq
  -- the source that does not break logs its tokens and nothing else
  have hscans : (Stream.ofDelivery other).scans.map Scan.records = front ++ record :: back := by
    obtain ⟨front', record', back', hplain', hwhole⟩ := (Stream.ofDelivery other).exists_records_eq
    rw [hwhole, hunopened.1, ← hplain, h, hplain']
    rfl
  obtain ⟨before, after, hweave, hweave'⟩ := Listing.exists_weave_eq hscans hbroken
    (Listing.ofDelivery other).final.journal.reverse
  have hrecords : (Compilation.ofDelivery style other).records = before ++ after := by
    rw [← hweave]
    exact congrArg (· ++ _) hunopened.2
  have hrecords' : (Compilation.ofDelivery style delivery).records =
      delivery.records ++ (before ++
        ((Stream.ofDelivery delivery).fault.map faultRecord).toList ++ after) := by
    rw [← hweave', ← (Listing.ofDelivery_congr h).2]
    rfl
  rw [hrecords, hrecords']
  -- a break right behind the first byte or before it is noticed before the first step
  by_cases hbeyond : (Stream.unopened delivery).looksBeyond = true
  · rw [Delivery.records, Stream.noticed, if_pos hbeyond, Stream.ofDelivery, Stream.settled,
      if_pos hbeyond]
    exact ⟨[], before ++ after, rfl, by simp [Stream.unopened]⟩
  · rw [Delivery.records, Stream.noticed, if_neg hbeyond, Stream.ofDelivery, Stream.settled,
      if_neg hbeyond]
    exact ⟨before, after, rfl, rfl⟩

end LineBasic
