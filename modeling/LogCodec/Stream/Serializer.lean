import LogCodec.Stream.Preamble
import LogCodec.Stream.Record

/-! # Serializers

    A serializer turns log messages into event records.  For a four-byte stream
    it keeps the running timestamp, that of the event before, and writes the
    difference to it.  The running timestamp moves only when a record was made. -/

namespace LogCodec

/-- The writing side of a stream. -/
structure Serializer where
  width : Width
  info : TimestampInfo
  /-- The time of the last event, or the reference timestamp; zero for an
      eight-byte stream. -/
  running : Int64
  closed : Bool
deriving DecidableEq

namespace Serializer

/-- A serializer and the preamble of its stream.  An eight-byte stream has no
    reference timestamp. -/
def create (width : Width) (info : TimestampInfo) (reference : Int64) :
    Result (Serializer × Bytes) := do
  let preamble ← Preamble.toBytes ⟨width, info, reference⟩
  let running :=
    match width with
    | .fourByte => reference
    | .eightByte => 0
  return (⟨width, info, running, false⟩, preamble)

/-- The running timestamp of a four-byte stream. -/
def runningTimestamp? (s : Serializer) : Option Int64 :=
  match s.width with
  | .fourByte => some s.running
  | .eightByte => none

/-- Sets the running timestamp of a four-byte stream. -/
def setRunning (s : Serializer) (timestamp : Int64) : Serializer :=
  match s.width with
  | .fourByte => { s with running := timestamp }
  | .eightByte => s

/-- Puts the running timestamp back to what it was, after a record that was made but
    not written. -/
def rewind (s : Serializer) (running : Option Int64) : Serializer :=
  match running with
  | some timestamp => s.setRunning timestamp
  | none => s

/-- The time that is stored for an event, a difference modulo `2 ^ 64` for a
    four-byte stream. -/
def storedTime (s : Serializer) (timestamp : Int64) : Int64 :=
  match s.width with
  | .fourByte => timestamp - s.running
  | .eightByte => timestamp

/-- The record of an event, and the serializer after it. -/
def serialize (s : Serializer) (event : Event) : Result (Bytes × Serializer) := do
  if s.closed then throw .closed
  let encoded ← Encoded.ofMessage s.width event.message
  let record ← Record.toBytes ⟨encoded, s.storedTime event.timestamp⟩
  return (record, s.setRunning event.timestamp)

/-- A closed serializer makes no more records. -/
def close (s : Serializer) : Serializer := { s with closed := true }

end Serializer

end LogCodec
