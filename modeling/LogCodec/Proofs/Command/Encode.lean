import LogCodec.Command.Basic
import LogCodec.Proofs.Writer.Calls

/-! # Encoding a text log

    A writer whose sink accepts everything writes all events.  So a text is encoded
    unless the metadata is too long for the preamble, and the events are read from
    the stream that is written.

    - `Writer.Ready`: a writer that cannot fail.
    - `Command.encodeText_eq_ok`, `Command.encodeText_eq_error`: what comes of
      encoding a text. -/

namespace LogCodec

/-! ### Writers that do not fail -/

namespace Writer

variable {w : Writer}

/-- The writer is open, and its sink accepts everything. -/
structure Ready (w : Writer) : Prop where
  sink : w.sink.Accepts
  opened : w.serializer.closed = false

theorem Ready.write (h : w.Ready) {event : Event} (hlength : event.message.length ≤ 2 ^ 31 - 1) :
    ∃ w', w.write event = (.ok (), w') ∧ w'.Ready := by
  obtain ⟨record, hrecord⟩ := Serializer.exists_serialize h.opened hlength
  obtain ⟨sink, hsink, haccepts⟩ := h.sink.writeAll record
  refine ⟨⟨sink, w.serializer.setRunning event.timestamp, w.events + 1,
    w.bytes + record.length⟩, ?_, haccepts, ?_⟩
  · simp only [Writer.write, hrecord, hsink]
  · show (w.serializer.setRunning event.timestamp).closed = false
    rw [Serializer.closed_setRunning, h.opened]

/-- All events are written, each by a call that succeeds. -/
theorem Ready.writeEvents (h : w.Ready) {events : List Event}
    (hlength : ∀ event ∈ events, event.message.length ≤ 2 ^ 31 - 1) :
    ∃ w', w.writeEvents events = (.ok (), w') ∧ w.writeEach events = some (events, w') ∧
      w'.Ready := by
  induction events generalizing w with
  | nil => exact ⟨w, rfl, rfl, h⟩
  | cons event rest ih =>
    obtain ⟨w₁, hwrite, hready⟩ := h.write (hlength event (List.mem_cons_self ..))
    obtain ⟨w', hevents, heach, hready'⟩ :=
      ih hready fun e hmem => hlength e (List.mem_cons_of_mem _ hmem)
    refine ⟨w', ?_, ?_, hready'⟩
    · simp only [Writer.writeEvents, hwrite, hevents]
    · simp only [Writer.writeEach, hwrite, heach, Option.map_some]

theorem Ready.finish (h : w.Ready) : ∃ sink, w.finish = (.ok (), sink) := by
  obtain ⟨sink, hsink, haccepts⟩ := h.sink.writeAll [Record.endTag]
  refine ⟨sink, ?_⟩
  simp only [Writer.finish, h.opened, hsink, Sink.flush, haccepts.flush, Bool.false_eq_true,
    if_false]

section

variable {width : Width} {info : TimestampInfo} {reference : Int64}

/-- A stream is started when its metadata fits into the preamble. -/
theorem exists_create
    (h : (Preamble.metadata ⟨width, info, reference⟩).length ≤ Preamble.metadataMax) :
    ∃ w, create .empty width info reference = .ok w ∧ w.Ready := by
  obtain ⟨preamble, hpreamble⟩ :
      ∃ preamble, Preamble.toBytes ⟨width, info, reference⟩ = .ok preamble :=
    ⟨_, Preamble.toBytes_eq_ok_iff.2 ⟨h, rfl⟩⟩
  have hcreate := Serializer.create_eq_ok_iff.2 ⟨hpreamble, rfl⟩
  obtain ⟨sink, hsink, haccepts⟩ := Sink.accepts_empty.writeAll preamble
  simp only [create, hcreate, hsink]
  exact ⟨_, rfl, haccepts, rfl⟩

/-- And only then. -/
theorem fits_of_create {sink : Sink} (h : create sink width info reference = .ok w) :
    (Preamble.metadata ⟨width, info, reference⟩).length ≤ Preamble.metadataMax := by
  obtain ⟨preamble, hcreate, -⟩ := create_eq_ok h
  exact (Preamble.toBytes_eq_ok_iff.1 (Serializer.create_eq_ok_iff.1 hcreate).1).1

end

end Writer

/-! ### Texts -/

theorem Written.event_entries (offset : Nat) (written : List Written) :
    (Written.entries offset written).map Entry.event = written.map Written.event := by
  induction written generalizing offset with
  | nil => rfl
  | cons x rest ih => exact congrArg (x.event :: ·) (ih _)

/-- The events that are read from a stream. -/
def Session.events (session : Session) : List Event := session.transcript.entries.map Entry.event

namespace Command

variable {input output : String} {options : StreamOptions} {text : Bytes}

/-- The preamble of the stream of a text. -/
def preambleOf (options : StreamOptions) (text : Bytes) : Preamble :=
  ⟨options.width, options.info,
    options.reference.getD (TextLog.firstTimestamp (TextLog.lines text))⟩

/-- A text is encoded into a stream from which its events are read. -/
theorem encodeText_eq_ok
    (hfits : (preambleOf options text).metadata.length ≤ Preamble.metadataMax)
    (hlength : ∀ event ∈ TextLog.events (TextLog.lines text),
      event.message.length ≤ 2 ^ 31 - 1) :
    ∃ stream tally session, encodeText input output options (.ofBytes text) = ⟨stream, .ok tally⟩ ∧
      Deserializer.session stream = .ok session ∧
      session.events = TextLog.events (TextLog.lines text) ∧
      session.transcript.error = .endOfStream := by
  obtain ⟨w, hcreate, hready⟩ := Writer.exists_create hfits
  obtain ⟨w', hevents, heach, hready'⟩ := hready.writeEvents hlength
  obtain ⟨sink, hfinish⟩ := hready'.finish
  -- what is in the sink is the stream of a serializer
  obtain ⟨preamble, hpreamble, hsink, -⟩ := Writer.create_eq_ok hcreate
  obtain ⟨-, written, hwritten, hsink', -⟩ := Writer.wrote_of_writeEach heach
  obtain ⟨hmap, -, hsession⟩ := Deserializer.session_of_serializeAll hpreamble hwritten
  have hbytes := Writer.bytes_of_finish hfinish
  have hempty : Sink.empty.bytes = [] := rfl
  rw [hsink', hsink, hempty, List.nil_append, List.append_assoc] at hbytes
  rw [← hbytes] at hsession
  refine ⟨sink.bytes, ⟨w'.events, w'.bytes + 1⟩, _, ?_, hsession, ?_, rfl⟩
  · have hcreate' : Writer.create .empty options.width options.info
        (options.reference.getD (TextLog.firstTimestamp (TextLog.lines text))) = .ok w := hcreate
    simp only [encodeText, TextLog.linesOf, Contents.ofBytes, hcreate', hevents, finishStream,
      hfinish]
  · rw [← hmap]
    exact Written.event_entries ..

/-- A text is not encoded when the metadata is too long. -/
theorem encodeText_eq_error
    (h : Preamble.metadataMax < (preambleOf options text).metadata.length) :
    ∃ failure, (encodeText input output options (.ofBytes text)).result = .error failure := by
  cases hcreate : Writer.create .empty options.width options.info
      (options.reference.getD (TextLog.firstTimestamp (TextLog.lines text))) with
  | ok w =>
    have hfits := Writer.fits_of_create hcreate
    exact absurd h (Nat.not_lt.2 hfits)
  | error failed =>
    simp only [encodeText, TextLog.linesOf, Contents.ofBytes, hcreate]
    exact ⟨_, rfl⟩

end Command

end LogCodec
