/-!
# Byte sources

A source answers one read after another. What a listing gets from it are the bytes before
its first failure or its end: an interrupted read is made again, and nothing is read after
a failure or the end.
-/

namespace LineBasic

/-- The outcome of one read of a source. -/
inductive Read where
  /-- One more byte. -/
  | byte (b : UInt8)
  /-- Nothing yet; the read is made again. -/
  | interrupted
  /-- The source broke, for the reason given. -/
  | failed (reason : String)
  /-- The source is at its end. -/
  | ended
  deriving DecidableEq, Repr

/-- What a listing gets from a source. -/
structure Delivery where
  /-- The bytes up to the first failure or the end. -/
  bytes : List UInt8
  /-- Why the source broke, if it did. -/
  fault : Option String
  /-- The outcomes that are never asked for. -/
  unasked : List Read
  deriving DecidableEq, Repr

namespace Delivery

/-- The delivery of bytes held in memory. -/
def ofBytes (bytes : List UInt8) : Delivery := ⟨bytes, none, []⟩

/-- The delivery of a source, from the outcomes of its reads. A source that has no more
outcomes is at its end. -/
def ofReads : List Read → Delivery
  | [] => ⟨[], none, []⟩
  | .byte b :: reads =>
    let later := ofReads reads
    { later with bytes := b :: later.bytes }
  | .interrupted :: reads => ofReads reads
  | .failed reason :: reads => ⟨[], some reason, reads⟩
  | .ended :: reads => ⟨[], none, reads⟩

end Delivery

end LineBasic
