import LineBasic.Proofs.SameTokens
import LineBasic.Proofs.Streaming
import LineBasic.Proofs.Token.WindowScan

/-!
# Sources that break off

A source that breaks off is the same as one that ends there: what it delivered by then is scanned,
parsed and compiled as if it had been held in memory, and the break is logged as one warning. After
its first failure, or its end, a source is not asked again, however many tokens are asked for
(`brokenOff_eq_truncated`).

What is delivered is read off the outcomes of the reads (`Delivery.ofReads_append`). That scanning
asks for no more is a matter of the scanner that reads byte by byte: it stands on a stream
throughout, and at the end of the stream it has taken in all that was delivered and nothing else
(`Window.Ready.after_eq`).
-/

namespace LineBasic

/-! ## Steps of a stream -/

namespace Stream

/-- The stream after some steps. The end is a step as well. -/
def after (count : Nat) (stream : Stream) : Stream :=
  (·.next.rest)^[count] stream

theorem after_succ (count : Nat) (stream : Stream) :
    stream.after (count + 1) = stream.next.rest.after count := rfl

/-- Tokens asked for behind the end change nothing more. -/
theorem after_of_eof {stream : Stream} (h : stream.next.token.kind = .eof) (count : Nat) :
    stream.after (count + 1) = stream.next.rest := by
  have hrest : stream.next.rest.next.rest = stream.next.rest := by rw [next_rest_of_eof h]
  exact Function.iterate_fixed hrest count

/-- The token of a step is one of the tokens of the stream, and the end token for ever once they
have been given. -/
theorem token_after (count : Nat) (stream : Stream) :
    (stream.after count).next.token =
        stream.tokens.getD count (.endAt (stream.loc.after stream.unread)) ∧
      (stream.tokens.length ≤ count → (stream.after count).unread = []) := by
  induction stream using Stream.induction generalizing count with
  | last stream hend =>
    have hends := ends_of_eof hend
    rw [tokens_of_eof hend]
    cases count with
    | zero => exact ⟨rfl, fun h => absurd h (by simp)⟩
    | succ count =>
      -- the end token is given over and over
      rw [after_of_eof hend, next_rest_of_eof hend]
      exact ⟨hends.token, fun _ => hends.rest⟩
  | step stream hend ih =>
    obtain ⟨piece, -, hunread, hloc, -⟩ := exists_piece hend
    rw [tokens_of_ne_eof hend]
    cases count with
    | zero => exact ⟨rfl, fun h => absurd h (by simp)⟩
    | succ count =>
      obtain ⟨htoken, hread⟩ := ih count
      -- the end token is placed behind all bytes, also as seen from behind the first token
      rw [after_succ, htoken, hloc, hunread, ← Location.after_append]
      exact ⟨rfl, fun h => hread (Nat.le_of_succ_le_succ h)⟩

end Stream

/-! ## Tokens of a window -/

namespace Window

/-- The window after some tokens, whether or not they are there. -/
def after (count : Nat) (window : Window) : Window :=
  (·.next.2)^[count] window

/-- After some tokens, a window stands on the stream after as many steps, and has noticed the break
of the source if it is not still to come. -/
theorem Ready.after_eq {window : Window} (h : window.Ready) (count : Nat) :
    (window.after count).Ready ∧ (window.after count).stream = window.stream.after count ∧
      (window.after count).faults ++ (window.after count).delivery.fault.toList =
        window.faults ++ window.delivery.fault.toList ∧
      (window.after count).delivery.unasked = window.delivery.unasked := by
  induction count generalizing window with
  | zero => exact ⟨h, rfl, rfl, rfl⟩
  | succ count ih =>
    obtain ⟨-, hbehind⟩ := h.next_eq
    obtain ⟨hready, hstream, hfaults, hunasked⟩ := ih hbehind.ready
    refine ⟨hready, ?_, hfaults.trans ?_, hunasked.trans hbehind.unasked⟩
    · rw [Stream.after_succ, ← hbehind.stream]
      exact hstream
    · -- the step notices the break or leaves it for later
      have hfault : window.next.2.delivery.fault = window.stream.next.rest.fault :=
        congrArg Stream.fault hbehind.stream
      rw [hbehind.faults, hfault]
      obtain ⟨hnoticed, hrest⟩ | ⟨hnoticed, hrest, -⟩ := window.stream.fault_next
      · rw [hnoticed, hrest, List.append_assoc]
        exact congrArg (_ ++ ·) (List.append_nil _)
      · rw [hnoticed, hrest, List.append_assoc]
        rfl

/-- The reads that are not asked for are the last ones. -/
theorem unasked_suffix (reads : List Read) : (Delivery.ofReads reads).unasked <:+ reads := by
  fun_induction Delivery.ofReads reads with
  | case1 => exact List.suffix_rfl
  | case2 b reads later ih | case3 reads ih => exact ih.trans (List.suffix_cons _ _)
  | case4 reason reads | case5 reads => exact List.suffix_cons _ _

/-- What is never asked for is not asked for by the window. -/
theorem unasked_delivery_suffix (window : Window) :
    window.delivery.unasked <:+ window.unasked := by
  unfold delivery
  split
  next => exact List.suffix_rfl
  next => exact unasked_suffix _

end Window

/-! ## Sources that stop -/

/-- The read with which a source stops: it fails for a reason or, without one, is at its end. -/
def Read.stop : (fault : Option String) → Read
  | some reason => .failed reason
  | none => .ended

/-- A source that stops has delivered the bytes before, however often it was interrupted, and what
would come after that is not asked for. -/
theorem Delivery.ofReads_append_stop {reads : List Read} {bytes : List UInt8}
    (h : reads.filter (· ≠ .interrupted) = bytes.map .byte) (fault : Option String)
    (later : List Read) :
    Delivery.ofReads (reads ++ Read.stop fault :: later) = ⟨bytes, fault, later⟩ := by
  induction reads generalizing bytes with
  | nil =>
    obtain rfl : bytes = [] := List.map_eq_nil_iff.1 h.symm
    cases fault <;> rfl
  | cons read reads ih =>
    by_cases hread : read = .interrupted
    · subst hread
      exact ih (by simpa using h)
    · rw [List.filter_cons_of_pos (by simpa using hread)] at h
      obtain ⟨b, rest, rfl, rfl, hrest⟩ := List.map_eq_cons_iff.1 h.symm
      rw [List.cons_append, Delivery.ofReads, ih hrest.symm]

/-- The tokens of a delivery are those of its bytes. -/
theorem tokens_ofDelivery (delivery : Delivery) :
    (Stream.ofDelivery delivery).tokens = tokenize delivery.bytes := by
  have hunbroken : (Stream.ofDelivery delivery).unbroken =
      (Stream.ofDelivery (.ofBytes delivery.bytes)).unbroken := by
    rw [Stream.ofDelivery, Stream.ofDelivery, Stream.unbroken_settled, Stream.unbroken_settled]
    rfl
  rw [tokenize, ← Stream.tokens_unbroken, hunbroken, Stream.tokens_unbroken]

/-- A window on a source gives the tokens of what the source delivers, and the end token for ever
once they have been given. It notices the break of the source once, at the latest with the end
token, and does not ask for what comes after that. -/
theorem Window.after_openOn (reads : List Read) (count : Nat) :
    let window := (Window.openOn reads).after count
    let delivery := Delivery.ofReads reads
    window.next.1 = (tokenize delivery.bytes).getD count (.endAt (.behind delivery.bytes)) ∧
      (window.faults <+: delivery.fault.toList ∧ delivery.unasked <:+ window.unasked) ∧
      ((tokenize delivery.bytes).length ≤ count →
        window.faults = delivery.fault.toList ∧ window.unasked = delivery.unasked) := by
  intro window delivery
  obtain ⟨hstream, hfaults, hunasked⟩ := Window.openOn_eq reads
  obtain ⟨hready, hstream', hfaults', hunasked'⟩ := (Window.ready_openOn reads).after_eq count
  obtain ⟨htoken, hread⟩ := (Stream.ofDelivery delivery).token_after count
  obtain ⟨hunread, hloc⟩ := Stream.unread_ofDelivery delivery
  rw [hstream] at hstream'
  rw [tokens_ofDelivery] at htoken hread
  -- a break is noticed when the source is opened, or is still to come then
  have hall : window.faults ++ window.delivery.fault.toList = delivery.fault.toList := by
    have hfault : (Window.openOn reads).delivery.fault = (Stream.ofDelivery delivery).fault :=
      congrArg Stream.fault hstream
    rw [hfaults', hfaults, hfault]
    exact Stream.noticed_append_settled (Stream.unopened delivery)
  rw [hunasked] at hunasked'
  refine ⟨?_, ⟨⟨_, hall⟩, hunasked' ▸ window.unasked_delivery_suffix⟩, fun hlength => ?_⟩
  · rw [hready.next_eq.1, hstream', htoken, hloc, hunread, Location.start_after]
  · have hpending : window.pending = [] := (congrArg Stream.unread hstream').trans (hread hlength)
    have hdelivery : window.delivery = ⟨[], none, window.unasked⟩ :=
      if_pos (hready.drained hpending)
    rw [hdelivery] at hall hunasked'
    exact ⟨(List.append_nil _).symm.trans hall, hunasked'⟩

/-- A source that stops after its first `count` bytes, by failing or by being at its end, gives the
tokens, the program, the C text and the diagnostics of those bytes held in memory. If it fails, and
not only after it was at its end, that is logged as one warning, and otherwise the log is the same.
Nothing is asked for after the source has stopped. Scanning it byte by byte gives the same tokens,
notices the failure once, and asks for nothing more either, however many tokens are asked for. -/
theorem brokenOff_eq_truncated (style : Style) (bytes : List UInt8) (count : Nat)
    (fault : Option String) {reads : List Read}
    (hreads : reads.filter (· ≠ .interrupted) = (bytes.take count).map .byte)
    (later : List Read) :
    let noticed := if count ≤ bytes.length then fault else none
    let source := reads ++ Read.stop noticed :: later
    let broken := Compilation.ofDelivery style (.ofReads source)
    let truncated := compile style (bytes.take count)
    ((Stream.ofDelivery (.ofReads source)).tokens = tokenize (bytes.take count) ∧
      broken.program = truncated.program ∧ broken.output = truncated.output ∧
      broken.diagnostics = truncated.diagnostics) ∧
    (∃ before after, truncated.records = before ++ after ∧
      broken.records = before ++ (noticed.map faultRecord).toList ++ after) ∧
    (Delivery.ofReads source).unasked = later ∧
    ∀ tokens, let window := (Window.openOn source).after tokens
      window.next.1 =
          (tokenize (bytes.take count)).getD tokens (.endAt (.behind (bytes.take count))) ∧
        (window.faults <+: noticed.toList ∧ later <:+ window.unasked) ∧
        ((tokenize (bytes.take count)).length ≤ tokens →
          window.faults = noticed.toList ∧ window.unasked = later) := by
  intro noticed source broken truncated
  -- what is delivered are the bytes before the stop, and the fault that is noticed there
  have hdelivery : Delivery.ofReads source = ⟨bytes.take count, noticed, later⟩ :=
    Delivery.ofReads_append_stop hreads noticed later
  have htokens : (Stream.ofDelivery (.ofReads source)).tokens = tokenize (bytes.take count) := by
    rw [tokens_ofDelivery, hdelivery]
  refine ⟨⟨htokens, Compilation.ofDelivery_congr htokens style⟩, ?_,
    congrArg Delivery.unasked hdelivery, fun tokens => ?_⟩
  · have hrecords : ∃ before after, truncated.records = before ++ after ∧
        broken.records =
          before ++ ((Delivery.ofReads source).fault.map faultRecord).toList ++ after :=
      Compilation.exists_records_eq style htokens rfl
    have hfault : (Delivery.ofReads source).fault = noticed := congrArg Delivery.fault hdelivery
    rwa [hfault] at hrecords
  · have hwindow := Window.after_openOn source tokens
    rwa [hdelivery] at hwindow

/-- The theorem at a source that is interrupted and fails within a string, with more to read. -/
theorem brokenOff_eq_truncated_string :
    let source : List Read := [.byte 0x22, .interrupted, .byte 0x61] ++
      Read.stop (some "boom") :: [.byte 0x22]
    (Stream.ofDelivery (.ofReads source)).tokens = [⟨.illegal, "\"a", ⟨1, 1⟩⟩, .endAt ⟨1, 3⟩] ∧
      (∃ before after, (compile .standard (Utf8.encode "\"a")).records = before ++ after ∧
        (Compilation.ofDelivery .standard (.ofReads source)).records =
          before ++ [faultRecord "boom"] ++ after) ∧
      ((Window.openOn source).after 2).unasked = [.byte 0x22] := by
  have hreads : ([.byte 0x22, .interrupted, .byte 0x61] : List Read).filter (· ≠ .interrupted) =
      ((Utf8.encode "\"ab\"").take 2).map .byte := by decide
  obtain ⟨⟨htokens, -⟩, hrecords, -, hwindow⟩ :=
    brokenOff_eq_truncated .standard (Utf8.encode "\"ab\"") 2 (some "boom") hreads [.byte 0x22]
  have hcut : tokenize ((Utf8.encode "\"ab\"").take 2) =
      [⟨.illegal, "\"a", ⟨1, 1⟩⟩, .endAt ⟨1, 3⟩] := by decide +kernel
  rw [hcut] at htokens
  refine ⟨htokens, hrecords, ((hwindow 2).2.2 ?_).2⟩
  rw [hcut]
  decide

end LineBasic
