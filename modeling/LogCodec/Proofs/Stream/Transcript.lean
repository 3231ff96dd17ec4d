import LogCodec.Stream.Deserializer

/-! # Transcripts

    A transcript is what comes of reading a stream event by event until there
    is no further event: the events, and after each of them the running
    timestamp and the place in the stream.

    - `Deserializer.transcript`: for bytes that are all there, each event read
      from where the one before it ends.
    - `Deserializer.session`: the same with the preamble before it. -/

namespace LogCodec

/-- An event that was read, and how matters stand after it. -/
structure Entry where
  event : Event
  /-- The running timestamp of a four-byte stream. -/
  running : Option Int64
  /-- Where the next record starts in the stream. -/
  offset : Nat
deriving DecidableEq

/-- What came of reading events one after another. -/
structure Transcript where
  entries : List Entry
  /-- Why there are no more. -/
  error : Error
  /-- Where reading stopped. -/
  offset : Nat
deriving DecidableEq

/-- What came of reading a whole stream. -/
structure Session where
  width : Width
  info : TimestampInfo
  /-- The running timestamp before the first event. -/
  running : Option Int64
  /-- Where the first record starts. -/
  offset : Nat
  transcript : Transcript
deriving DecidableEq

/-- The transcript with one more entry at the front. -/
def Transcript.cons (entry : Entry) (t : Transcript) : Transcript :=
  { t with entries := entry :: t.entries }

/-- The transcript with more entries at the front. -/
def Transcript.prepend (entries : List Entry) (t : Transcript) : Transcript :=
  { t with entries := entries ++ t.entries }

namespace Deserializer

/-- Reads events from bytes that start at a place in the stream. -/
def transcript (d : Deserializer) (offset : Nat) (bytes : Bytes) : Transcript :=
  match _h : d.next bytes with
  | (.ok (event, size), d') =>
    (d'.transcript (offset + size) (bytes.drop size)).cons
      ⟨event, d'.runningTimestamp?, offset + size⟩
  | (.error error, _) => ⟨[], error, offset⟩
termination_by bytes.length
decreasing_by
  have := size_of_next _h
  rw [List.length_drop]
  omega

/-- Reads the preamble and then events. -/
def session (bytes : Bytes) : Result Session :=
  (ofBytes bytes).map fun (d, size) =>
    ⟨d.width, d.info, d.runningTimestamp?, size, d.transcript size (bytes.drop size)⟩

section

variable {d d' : Deserializer} {bytes : Bytes} {offset : Nat}

theorem transcript_of_ok {event : Event} {size : Nat} (h : d.next bytes = (.ok (event, size), d')) :
    d.transcript offset bytes =
      (d'.transcript (offset + size) (bytes.drop size)).cons
        ⟨event, d'.runningTimestamp?, offset + size⟩ := by
  rw [transcript]
  split <;> simp_all

theorem transcript_of_error {error : Error} (h : d.next bytes = (.error error, d')) :
    d.transcript offset bytes = ⟨[], error, offset⟩ := by
  rw [transcript]
  split <;> simp_all

end

end Deserializer

end LogCodec
