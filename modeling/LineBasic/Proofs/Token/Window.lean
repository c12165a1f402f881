import LineBasic.Proofs.Token.Pieces
import Mathlib.Logic.Function.Iterate

/-!
# Scanning byte by byte

A scanner that asks its source for one byte at a time (`Window`). It holds the byte under
examination and the one behind it, and does not ask a source again that has failed or ended.

What a window still has in front of it is a stream (`Window.stream`): the two bytes that it holds,
and all that its source would deliver. One token read byte by byte is one step of that stream, and
the window stands on the rest of it (`next_eq`). So the source is one byte further than the scan, no
byte is lost or read twice where it breaks off, and a break is noticed once.
-/

namespace LineBasic

/-- A scanner with the two bytes that it looks at. -/
structure Window where
  /-- The byte under examination, if the source had one. -/
  current : Option UInt8
  /-- The byte behind it, if the source had one. -/
  ahead : Option UInt8
  /-- The outcomes of reads that have not been asked for. -/
  unasked : List Read
  /-- Whether the source has failed or ended. -/
  drained : Bool
  /-- Why the source has failed, as far as that has been noticed. -/
  faults : List String
  /-- The place of the byte under examination. -/
  loc : Location
  /-- Nothing has been scanned. -/
  fresh : Bool
  deriving DecidableEq, Repr

namespace Stream

/-- The stream some bytes further on, wherever its tokens end. -/
def skipped (stream : Stream) (count : Nat) : Stream :=
  { stream with
    unread := stream.unread.drop count, loc := stream.loc.after (stream.unread.take count) }

theorem skipped_skipped (stream : Stream) (first second : Nat) :
    (stream.skipped first).skipped second = stream.skipped (first + second) := by
  simp only [skipped, List.drop_drop, List.take_add, Location.after_append]

theorem settled_of_looksBeyond {stream : Stream} (h : stream.looksBeyond = true) :
    stream.settled = { stream with fault := none } :=
  if_pos h

theorem noticed_of_looksBeyond {stream : Stream} (h : stream.looksBeyond = true) :
    stream.noticed = stream.fault :=
  if_pos h

/-- A break is noticed now or is still to come. -/
theorem noticed_append_settled (stream : Stream) :
    stream.noticed.toList ++ stream.settled.fault.toList = stream.fault.toList := by
  by_cases hbeyond : stream.looksBeyond = true
  · rw [noticed_of_looksBeyond hbeyond, settled_of_looksBeyond hbeyond]
    exact List.append_nil _
  · rw [noticed, settled, if_neg hbeyond, if_neg hbeyond]
    rfl

/-- A stream that has looked beyond the last byte goes on to do so. -/
theorem looksBeyond_skipped {stream : Stream} (h : stream.looksBeyond = true) (count : Nat) :
    (stream.skipped count).looksBeyond = true := by
  rw [looksBeyond, List.isEmpty_iff_length_eq_zero, List.length_tail] at h ⊢
  rw [skipped, List.length_drop]
  omega

/-- A break that is noticed on the way is noticed once. -/
theorem settled_skipped (stream : Stream) (first second : Nat) :
    ((stream.skipped first).settled.skipped second).settled =
        (stream.skipped (first + second)).settled ∧
      (stream.skipped first).noticed.toList ++
          ((stream.skipped first).settled.skipped second).noticed.toList =
        (stream.skipped (first + second)).noticed.toList := by
  rw [← skipped_skipped]
  generalize stream.skipped first = stream
  by_cases hbeyond : stream.looksBeyond = true
  · -- nothing is left to be noticed, and what is further on is at the end as well
    have hlater : (stream.skipped second).looksBeyond = true := looksBeyond_skipped hbeyond second
    have hlater' : (({ stream with fault := none } : Stream).skipped second).looksBeyond = true :=
      hlater
    rw [settled_of_looksBeyond hbeyond, noticed_of_looksBeyond hbeyond,
      settled_of_looksBeyond hlater, noticed_of_looksBeyond hlater,
      settled_of_looksBeyond hlater', noticed_of_looksBeyond hlater']
    exact ⟨rfl, List.append_nil _⟩
  · have hsettled : stream.settled = stream := if_neg hbeyond
    rw [hsettled, noticed, if_neg hbeyond]
    exact ⟨rfl, rfl⟩

/-- The stream once something has been scanned. -/
def scanned (stream : Stream) : Stream :=
  { stream with fresh := false }

/-- A step of a stream skips the spaces and the bytes of the token. -/
theorem next_eq_skipped (stream : Stream) :
    stream.next =
      match Lexeme.first? stream.opensLine stream.ahead with
      | none =>
        let rest := stream.scanned.skipped stream.spaces.length
        ⟨.endAt (stream.loc.after stream.spaces), rest.noticed, rest.settled⟩
      | some lexeme =>
        let rest := stream.scanned.skipped (stream.spaces.length + lexeme.source.length)
        ⟨⟨lexeme.kind, lexeme.literal, stream.loc.after stream.spaces⟩, rest.noticed,
          rest.settled⟩ := by
  -- the bytes that are read are the spaces and the lexeme, and the location moves over both
  have hskipped (source rest : List UInt8) (hahead : stream.ahead = source ++ rest) :
      stream.scanned.skipped (stream.spaces.length + source.length) =
        ⟨rest, (stream.loc.after stream.spaces).after source, false, stream.fault⟩ := by
    rw [← List.length_append, skipped, ← Location.after_append]
    have hunread : stream.scanned.unread = (stream.spaces ++ source) ++ rest := by
      rw [List.append_assoc, ← hahead]
      exact stream.spaces_append_ahead.symm
    rw [hunread, List.drop_left, List.take_left]
    rfl
  unfold next
  cases hfirst : Lexeme.first? stream.opensLine stream.ahead with
  | none =>
    have hend := hskipped [] [] (Lexeme.first?_eq_none_iff.1 hfirst)
    rw [List.length_nil, Nat.add_zero] at hend
    dsimp only
    rw [hend]
    rfl
  | some lexeme =>
    dsimp only
    rw [hskipped _ _ (List.prefix_iff_eq_append.1 (Lexeme.first?_isPrefix hfirst)).symm]

end Stream

namespace Window

/-! ## Asking for bytes -/

/-- Asks for one more byte, and asks again if the read is interrupted. -/
def poll (window : Window) : List Read → Window
  | [] => { window with ahead := none, unasked := [], drained := true }
  | .byte b :: reads => { window with ahead := some b, unasked := reads }
  | .interrupted :: reads => window.poll reads
  | .failed reason :: reads =>
    { window with
      ahead := none, unasked := reads, drained := true, faults := window.faults ++ [reason] }
  | .ended :: reads => { window with ahead := none, unasked := reads, drained := true }

/-- The window one byte further on. -/
def advance (window : Window) : Window :=
  let moved :=
    { window with
      current := window.ahead
      ahead := none
      loc := window.current.elim window.loc window.loc.next }
  if window.drained then moved else moved.poll window.unasked

/-- The window at the start of a source. -/
def openOn (reads : List Read) : Window :=
  (⟨none, none, reads, false, [], .start, true⟩ : Window).advance.advance

/-- What the source still delivers to the window. -/
def delivery (window : Window) : Delivery :=
  if window.drained then ⟨[], none, window.unasked⟩ else .ofReads window.unasked

/-- The bytes from the one under examination on. -/
def pending (window : Window) : List UInt8 :=
  window.current.toList ++ (window.ahead.toList ++ window.delivery.bytes)

/-- The stream in front of the window. -/
def stream (window : Window) : Stream :=
  ⟨window.pending, window.loc, window.fresh, window.delivery.fault⟩

/-- The window holds two bytes, unless the source is drained. -/
structure Ready (window : Window) : Prop where
  ahead_eq_none : window.current = none → window.ahead = none
  drained_eq_true : window.ahead = none → window.drained = true

/-! ## One byte further on -/

section Advance

variable (window : Window)

/-- Polling takes the first byte of what is delivered. If there is none, the source is drained, and
a break is noticed. -/
theorem poll_eq (hdrained : window.drained = false) (reads : List Read) :
    ∃ later, window.poll reads =
        { window with
          ahead := (Delivery.ofReads reads).bytes.head?
          unasked := later
          drained := (Delivery.ofReads reads).bytes.isEmpty
          faults := window.faults ++
            if (Delivery.ofReads reads).bytes.isEmpty then (Delivery.ofReads reads).fault.toList
            else [] } ∧
      (window.poll reads).delivery =
        ⟨(Delivery.ofReads reads).bytes.tail,
          if (Delivery.ofReads reads).bytes.isEmpty then none else (Delivery.ofReads reads).fault,
          (Delivery.ofReads reads).unasked⟩ := by
  induction reads with
  | nil => exact ⟨[], by simp [poll, Delivery.ofReads], by simp [poll, delivery, Delivery.ofReads]⟩
  | cons read reads ih =>
    cases read with
    | byte b =>
      refine ⟨reads, ?_, ?_⟩
      · simp [poll, Delivery.ofReads, hdrained]
      · simp [poll, delivery, Delivery.ofReads, hdrained]
    | interrupted => exact ih
    | failed reason | ended =>
      exact ⟨reads, by simp [poll, Delivery.ofReads], by simp [poll, delivery, Delivery.ofReads]⟩

/-- Moving on takes the first byte of what is delivered, whether or not the source is drained. -/
theorem advance_eq :
    ∃ later, window.advance =
        ⟨window.ahead, window.delivery.bytes.head?, later, window.delivery.bytes.isEmpty,
          window.faults ++
            if window.delivery.bytes.isEmpty then window.delivery.fault.toList else [],
          window.current.elim window.loc window.loc.next, window.fresh⟩ ∧
      window.advance.delivery =
        ⟨window.delivery.bytes.tail,
          if window.delivery.bytes.isEmpty then none else window.delivery.fault,
          window.delivery.unasked⟩ := by
  unfold advance
  by_cases hdrained : window.drained = true
  · exact ⟨window.unasked, by simp [delivery, hdrained], by simp [delivery, hdrained]⟩
  · rw [Bool.not_eq_true] at hdrained
    obtain ⟨later, hpolled, hdelivery⟩ := poll_eq
      { window with
        current := window.ahead, ahead := none,
        loc := window.current.elim window.loc window.loc.next } hdrained window.unasked
    refine ⟨later, ?_, ?_⟩
    · simpa [delivery, hdrained] using hpolled
    · simpa [delivery, hdrained] using hdelivery

@[simp]
theorem current_advance : window.advance.current = window.ahead := by
  obtain ⟨later, h, -⟩ := window.advance_eq
  rw [h]

@[simp]
theorem ahead_advance : window.advance.ahead = window.delivery.bytes.head? := by
  obtain ⟨later, h, -⟩ := window.advance_eq
  rw [h]

/-- The location moves on over the current byte, if there is one. -/
@[simp]
theorem loc_advance : window.advance.loc = window.current.elim window.loc window.loc.next := by
  obtain ⟨later, h, -⟩ := window.advance_eq
  rw [h]

@[simp]
theorem fresh_advance : window.advance.fresh = window.fresh := by
  obtain ⟨later, h, -⟩ := window.advance_eq
  rw [h]

/-- The window is drained once a byte is asked for and none is left. -/
theorem drained_advance : window.advance.drained = window.delivery.bytes.isEmpty := by
  obtain ⟨later, h, -⟩ := window.advance_eq
  rw [h]

/-- A fault is kept once a byte is asked for and none is left. -/
theorem faults_advance :
    window.advance.faults = window.faults ++
      if window.delivery.bytes.isEmpty then window.delivery.fault.toList else [] := by
  obtain ⟨later, h, -⟩ := window.advance_eq
  rw [h]

/-- The delivery gives up its first byte, or its fault if no byte is left. -/
theorem delivery_advance :
    window.advance.delivery =
      ⟨window.delivery.bytes.tail,
        if window.delivery.bytes.isEmpty then none else window.delivery.fault,
        window.delivery.unasked⟩ := by
  obtain ⟨later, -, h⟩ := window.advance_eq
  exact h

/-- Moving on leaves the byte under examination behind, and no other. -/
theorem pending_eq : window.pending = window.current.toList ++ window.advance.pending := by
  rw [pending, pending, current_advance, ahead_advance, delivery_advance]
  cases window.delivery.bytes <;> rfl

end Advance

/-! ## Windows that hold two bytes -/

namespace Ready

variable {window : Window} (h : window.Ready)

include h

/-- The current byte is the first of those pending. -/
theorem current_eq : window.current = window.pending.head? := by
  cases hcurrent : window.current with
  | some b =>
    rw [pending, hcurrent]
    rfl
  | none =>
    have hahead := h.ahead_eq_none hcurrent
    rw [pending, delivery, hcurrent, hahead, h.drained_eq_true hahead]
    rfl

/-- Moving on leaves the other bytes pending. -/
theorem pending_advance : window.advance.pending = window.pending.tail := by
  cases hcurrent : window.current with
  | some b =>
    rw [window.pending_eq, hcurrent]
    rfl
  | none =>
    have hnil : window.pending = [] := by rw [← List.head?_eq_none_iff, ← h.current_eq, hcurrent]
    have heq := window.pending_eq
    rw [hcurrent, Option.toList_none, List.nil_append, hnil] at heq
    rw [← heq, hnil]
    rfl

/-- A window that is ready stays so. -/
theorem advance : window.advance.Ready where
  ahead_eq_none hcurrent := by
    rw [current_advance] at hcurrent
    rw [ahead_advance, delivery, h.drained_eq_true hcurrent]
    rfl
  drained_eq_true hahead := by
    rw [ahead_advance, List.head?_eq_none_iff] at hahead
    rw [drained_advance, hahead]
    rfl

theorem ahead_eq : window.ahead = window.pending.tail.head? := by
  rw [← h.pending_advance, ← h.advance.current_eq, current_advance]

/-- Where no byte is pending, the delivery has been found empty. -/
theorem drained (hnil : window.pending = []) : window.drained = true := by
  refine h.drained_eq_true (h.ahead_eq_none ?_)
  rw [h.current_eq, hnil]
  rfl

/-- The source is at least one byte further than the scan. -/
theorem isEmpty_bytes : window.delivery.bytes.isEmpty = window.pending.tail.tail.isEmpty := by
  rw [← h.pending_advance, ← h.advance.pending_advance, pending, current_advance, ahead_advance,
    delivery_advance, delivery_advance, ahead_advance, delivery_advance]
  cases window.delivery.bytes with
  | nil => rfl
  | cons b bytes => cases bytes <;> rfl

/-- A break that is still to come stands behind the bytes that are held. -/
theorem fault_eq_none (hbeyond : window.stream.looksBeyond = true) :
    window.delivery.fault = none := by
  have hahead : window.ahead = none := by
    rw [h.ahead_eq, List.head?_eq_none_iff]
    exact List.isEmpty_iff.1 hbeyond
  rw [delivery, h.drained_eq_true hahead]
  rfl

/-- A window has looked for the fault as soon as its stream could. -/
theorem settled_stream : window.stream.settled = window.stream := by
  unfold Stream.settled
  split
  next hbeyond => exact congrArg (Stream.mk _ _ _) (h.fault_eq_none hbeyond).symm
  next => rfl

/-- One byte further on, a break of the source may come to notice. -/
theorem stream_advance :
    window.advance.stream = (window.stream.skipped 1).settled ∧
      window.advance.faults = window.faults ++ (window.stream.skipped 1).noticed.toList := by
  -- one byte further on, what is left behind the byte ahead is what is left to deliver
  have hbeyond : (window.stream.skipped 1).looksBeyond = window.delivery.bytes.isEmpty := by
    rw [h.isEmpty_bytes, ← List.drop_one (l := window.pending)]
    rfl
  have hloc : window.advance.loc = window.loc.after (window.pending.take 1) := by
    rw [loc_advance, h.current_eq]
    cases window.pending <;> rfl
  constructor
  · rw [stream, h.pending_advance, hloc, fresh_advance, delivery_advance, ← List.drop_one,
      Stream.settled, hbeyond]
    split
    next => rfl
    next => rfl
  · rw [faults_advance, Stream.noticed, hbeyond]
    split
    next => rfl
    next => rfl

end Ready

/-- A window that is opened on some reads is ready. -/
theorem ready_openOn (reads : List Read) : (openOn reads).Ready where
  ahead_eq_none hcurrent := by
    rw [openOn, current_advance, ahead_advance, List.head?_eq_none_iff] at hcurrent
    rw [openOn, ahead_advance, delivery_advance, hcurrent]
    rfl
  drained_eq_true hahead := by
    rw [openOn, ahead_advance, List.head?_eq_none_iff] at hahead
    rw [openOn, drained_advance, hahead]
    rfl

/-- A source is opened by looking at its first byte and at the one behind it. -/
theorem openOn_eq (reads : List Read) :
    (openOn reads).stream = .ofDelivery (.ofReads reads) ∧
      (openOn reads).faults = (Stream.unopened (.ofReads reads)).noticed.toList ∧
      (openOn reads).delivery.unasked = (Delivery.ofReads reads).unasked := by
  have hdelivery : (⟨none, none, reads, false, [], .start, true⟩ : Window).delivery =
      .ofReads reads := rfl
  generalize Delivery.ofReads reads = delivered at hdelivery
  obtain ⟨bytes, fault, unasked⟩ := delivered
  simp only [openOn, stream, pending, current_advance, ahead_advance, loc_advance, fresh_advance,
    delivery_advance, faults_advance, hdelivery]
  rcases bytes with _ | ⟨first, _ | ⟨second, bytes⟩⟩
  · refine ⟨rfl, ?_, trivial⟩
    cases fault <;> rfl
  · exact ⟨rfl, rfl, trivial⟩
  · exact ⟨rfl, rfl, trivial⟩

/-! ## Several bytes further on -/

/-- The window some bytes further on. -/
def skip (count : Nat) (window : Window) : Window :=
  advance^[count] window

theorem skip_succ (count : Nat) (window : Window) :
    skip (count + 1) window = skip count window.advance := rfl

theorem skip_one (window : Window) : skip 1 window = window.advance := rfl

theorem skip_skip (first second : Nat) (window : Window) :
    skip second (skip first window) = skip (first + second) window := by
  rw [skip, skip, skip, Nat.add_comm, Function.iterate_add_apply]

/-- Reads that are not asked for stay so. -/
@[simp]
theorem unasked_skip (count : Nat) (window : Window) :
    (skip count window).delivery.unasked = window.delivery.unasked := by
  induction count generalizing window with
  | zero => rfl
  | succ count ih => rw [skip_succ, ih, delivery_advance]

namespace Ready

variable {window : Window} (h : window.Ready)

include h

/-- A window that is ready stays so, however far it moves on. -/
theorem skip (count : Nat) : (window.skip count).Ready := by
  induction count generalizing window with
  | zero => exact h
  | succ count ih => exact ih h.advance

/-- Skipping drops the bytes in front. -/
theorem pending_skip (count : Nat) : (window.skip count).pending = window.pending.drop count := by
  induction count generalizing window with
  | zero => rfl
  | succ count ih => rw [skip_succ, ih h.advance, h.pending_advance, List.drop_tail]

theorem current_skip (count : Nat) :
    (window.skip count).current = (window.pending.drop count).head? := by
  rw [(h.skip count).current_eq, h.pending_skip]

/-- Some bytes further on, a break of the source may have come to notice. -/
theorem stream_skip (count : Nat) :
    (window.skip count).stream = (window.stream.skipped count).settled ∧
      (window.skip count).faults =
        window.faults ++ (window.stream.skipped count).noticed.toList := by
  induction count generalizing window with
  | zero =>
    refine ⟨h.settled_stream.symm, ?_⟩
    -- a window that is ready has noticed what fault there is
    have hnone : window.stream.noticed = none := by
      unfold Stream.noticed
      split
      next hbeyond => exact h.fault_eq_none hbeyond
      next => rfl
    exact (List.append_nil _).symm.trans (congrArg (window.faults ++ ·.toList) hnone.symm)
  | succ count ih =>
    obtain ⟨hstream, hfaults⟩ := h.stream_advance
    obtain ⟨hstream', hfaults'⟩ := ih h.advance
    -- the first byte is skipped with what comes to notice there, and then the others
    obtain ⟨hsettled, hnoticed⟩ := window.stream.settled_skipped 1 count
    rw [hstream] at hstream' hfaults'
    rw [skip_succ, hstream', hfaults', hfaults, hsettled, List.append_assoc, hnoticed,
      Nat.add_comm 1]
    exact ⟨rfl, rfl⟩

/-- Skipping moves the location over the bytes that are dropped. -/
theorem loc_skip (count : Nat) :
    (window.skip count).loc = window.loc.after (window.pending.take count) := by
  have hloc := congrArg Stream.loc (h.stream_skip count).1
  rwa [Stream.loc_settled] at hloc

end Ready

end Window

end LineBasic
