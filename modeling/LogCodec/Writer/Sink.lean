import LogCodec.Bytes

/-! # Byte sinks

    A sink accepts bytes piece by piece.  What it does with each piece that is
    offered is written down beforehand, as a plan of turns; when the plan is at
    its end it accepts all that is offered.  It may also have a bound on what it
    accepts in all.

    `Sink.writeAll` offers the rest again until all was accepted, and again
    after an interruption. -/

namespace LogCodec

/-- What a sink does with the bytes that it is offered. -/
inductive Sink.Turn where
  /-- It accepts at most so many of them, or all. -/
  | accept (limit : Option Nat)
  /-- It is interrupted before it accepts any. -/
  | interrupt
  /-- It refuses them. -/
  | reject (reason : String)
deriving DecidableEq

/-- A sink of bytes. -/
structure Sink where
  /-- The pieces that were accepted, the last one first. -/
  pieces : List Bytes
  /-- What happens next. -/
  plan : List Sink.Turn
  /-- The bound on all bytes and the failure that exceeding it is. -/
  bound : Option (Nat × String)
  /-- The failure of flushing, if it fails. -/
  flushFailure : Option String
deriving DecidableEq

namespace Sink

/-- A sink that accepts everything. -/
def empty : Sink := ⟨[], [], none, none⟩

/-- All bytes that were accepted. -/
def bytes (s : Sink) : Bytes := s.pieces.reverse.flatten

/-- How many bytes were accepted. -/
def size (s : Sink) : Nat := s.pieces.foldr (fun piece size => piece.length + size) 0

/-- The failure of accepting so many bytes more. -/
def excess? (s : Sink) (more : Nat) : Option String :=
  match s.bound with
  | some (limit, reason) => if limit < s.size + more then some reason else none
  | none => none

/-- The failure of a sink that accepts none of the bytes it is offered. -/
def nothingAccepted : String := "failed to write whole buffer"

/-- Offers bytes when the sink accepts at most `limit` of them.  Gives the bytes
    that were not accepted. -/
def offer (s : Sink) (limit : Option Nat) (bytes : Bytes) : Except String Bytes × Sink :=
  let piece :=
    match limit with
    | some limit => bytes.take limit
    | none => bytes
  match s.excess? piece.length with
  | some reason => (.error reason, s)
  | none =>
    if piece = [] then (.error nothingAccepted, s)
    else (.ok (bytes.drop piece.length), { s with pieces := piece :: s.pieces })

/-- Offers bytes until all are accepted, following a plan.  Nothing is offered
    once there is no rest. -/
def writeAllBy (s : Sink) : List Turn → Bytes → Except String Unit × Sink
  | plan, [] => (.ok (), { s with plan })
  | [], bytes =>
    let (result, s) := s.offer none bytes
    (result.map fun _ => (), { s with plan := [] })
  | .interrupt :: plan, bytes => writeAllBy s plan bytes
  | .reject reason :: plan, _ => (.error reason, { s with plan })
  | .accept limit :: plan, bytes =>
    match s.offer limit bytes with
    | (.error reason, s) => (.error reason, { s with plan })
    | (.ok rest, s) => writeAllBy s plan rest

/-- Writes all of some bytes, or fails. -/
def writeAll (s : Sink) (bytes : Bytes) : Except String Unit × Sink :=
  s.writeAllBy s.plan bytes

/-- Flushes the sink. -/
def flush (s : Sink) : Except String Unit :=
  match s.flushFailure with
  | some reason => .error reason
  | none => .ok ()

end Sink

end LogCodec
