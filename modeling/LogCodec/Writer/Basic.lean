import LogCodec.Stream.Serializer
import LogCodec.Writer.Sink

/-! # Writers

    A writer writes the events of a stream to a byte sink: the preamble first,
    one record for each event, and the end of the stream at last.

    When the sink fails, the running timestamp is put back to what it was before
    the event, so that the same event may be written again.  A sink that accepted
    part of the record before it failed leaves a damaged stream. -/

namespace LogCodec

/-- A stream being written to a sink. -/
structure Writer where
  sink : Sink
  serializer : Serializer
  /-- Events that were written. -/
  events : Nat
  /-- Bytes that were written, the preamble included. -/
  bytes : Nat
deriving DecidableEq

namespace Writer

/-- Starts a stream.  The sink is given back when that fails. -/
def create (sink : Sink) (width : Width) (info : TimestampInfo) (reference : Int64) :
    Except (Error × Sink) Writer :=
  match Serializer.create width info reference with
  | .error error => .error (error, sink)
  | .ok (serializer, preamble) =>
    match sink.writeAll preamble with
    | (.error reason, sink) => .error (.io reason, sink)
    | (.ok (), sink) => .ok ⟨sink, serializer, 0, preamble.length⟩

/-- Writes an event. -/
def write (w : Writer) (event : Event) : Result Unit × Writer :=
  let running := w.serializer.runningTimestamp?
  match w.serializer.serialize event with
  | .error error => (.error error, w)
  | .ok (record, serializer) =>
    match w.sink.writeAll record with
    | (.error reason, sink) =>
      -- the serializer has gone on to this event, which is not in the stream
      (.error (.io reason), { w with sink, serializer := serializer.rewind running })
    | (.ok (), sink) =>
      (.ok (), ⟨sink, serializer, w.events + 1, w.bytes + record.length⟩)

/-- Writes events until one fails. -/
def writeEvents (w : Writer) : List Event → Result Unit × Writer
  | [] => (.ok (), w)
  | event :: rest =>
    match w.write event with
    | (.error error, w) => (.error error, w)
    | (.ok (), w) => w.writeEvents rest

/-- Ends the stream and flushes the sink. -/
def finish (w : Writer) : Result Unit × Sink :=
  if w.serializer.closed then (.error .closed, w.sink)
  else
    match w.sink.writeAll [Record.endTag] with
    | (.error reason, sink) => (.error (.io reason), sink)
    | (.ok (), sink) =>
      match sink.flush with
      | .error reason => (.error (.io reason), sink)
      | .ok () => (.ok (), sink)

end Writer

end LogCodec
