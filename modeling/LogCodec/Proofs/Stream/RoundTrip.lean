import LogCodec.Proofs.Message.Length
import LogCodec.Proofs.Stream.Deserializer
import LogCodec.Proofs.Stream.Preamble
import LogCodec.Proofs.Stream.Transcript
import LogCodec.Stream.Serializer

/-! # Streams survive serializing

    A serializer and the deserializer of its stream go through the events in
    step: before each event they have the same running timestamp, so the
    difference that the one writes is taken back by the other.

    * `Follows d s`: the deserializer is in step with the serializer.
    * `next_of_serialize`: one event keeps them in step.
    * `transcript_of_serializeAll`: and so do all events.
    * `Serializer.session_of_create`: the same for the whole stream, from the
      preamble to the end. -/

namespace LogCodec

/-- The running timestamp of a stream of this width after an event at the time
    `running`. -/
def Width.running? (w : Width) (running : Int64) : Option Int64 :=
  match w with
  | .fourByte => some running
  | .eightByte => none

/-! ### Serializing a list of events -/

/-- An event, its record, and the serializer after it. -/
structure Written where
  event : Event
  record : Bytes
  after : Serializer

/-- What is to be read from records that stand one after another from a place on. -/
def Written.entries (offset : Nat) : List Written → List Entry
  | [] => []
  | x :: rest =>
    ⟨x.event, x.after.runningTimestamp?, offset + x.record.length⟩ ::
      entries (offset + x.record.length) rest

namespace Serializer

/-- Serializes events one after another, and fails when one of them fails. -/
def serializeAll (s : Serializer) : List Event → Result (List Written)
  | [] => .ok []
  | event :: rest => do
    let (record, s) ← s.serialize event
    let written ← s.serializeAll rest
    return ⟨event, record, s⟩ :: written

theorem serializeAll_cons_eq_ok_iff {s : Serializer} {event : Event} {rest : List Event}
    {written : List Written} :
    s.serializeAll (event :: rest) = .ok written ↔
      ∃ record s' tail, s.serialize event = .ok (record, s') ∧ s'.serializeAll rest = .ok tail ∧
        ⟨event, record, s'⟩ :: tail = written := by
  simp only [serializeAll, Result.bind_eq_ok_iff, pure, Except.pure, Except.ok.injEq]
  constructor
  · rintro ⟨⟨record, s'⟩, hs, tail, htail, h⟩
    exact ⟨record, s', tail, hs, htail, h⟩
  · rintro ⟨record, s', tail, hs, htail, h⟩
    exact ⟨(record, s'), hs, tail, htail, h⟩

theorem serialize_eq_ok_iff {s s' : Serializer} {event : Event} {record : Bytes}
    (h : s.closed = false) :
    s.serialize event = .ok (record, s') ↔
      ∃ e, Encoded.ofMessage s.width event.message = .ok e ∧
        Record.toBytes ⟨e, s.storedTime event.timestamp⟩ = .ok record ∧
        s.setRunning event.timestamp = s' := by
  have hdo : s.serialize event = Encoded.ofMessage s.width event.message >>= fun encoded =>
      Record.toBytes ⟨encoded, s.storedTime event.timestamp⟩ >>= fun record =>
        .ok (record, s.setRunning event.timestamp) := by
    simp only [serialize, h, Bool.false_eq_true, if_false]
    rfl
  simp only [hdo, Result.bind_eq_ok_iff, Except.ok.injEq, Prod.mk.injEq]
  constructor
  · rintro ⟨e, he, bytes, hbytes, rfl, hs⟩
    exact ⟨e, he, hbytes, hs⟩
  · rintro ⟨e, he, hbytes, hs⟩
    exact ⟨e, he, record, hbytes, rfl, hs⟩

@[simp] theorem width_setRunning (s : Serializer) (timestamp : Int64) :
    (s.setRunning timestamp).width = s.width := by
  unfold setRunning
  split <;> rfl

@[simp] theorem closed_setRunning (s : Serializer) (timestamp : Int64) :
    (s.setRunning timestamp).closed = s.closed := by
  unfold setRunning
  split <;> rfl

@[simp] theorem runningTimestamp?_setRunning (s : Serializer) (timestamp : Int64) :
    (s.setRunning timestamp).runningTimestamp? = s.width.running? timestamp := by
  obtain ⟨width, info, running, closed⟩ := s
  cases width <;> rfl

/-- The lengths in the record of a message fit into their fields. -/
theorem fits_of_ofMessage {w : Width} {message : Bytes} {e : Encoded w}
    (h : Encoded.ofMessage w message = .ok e) (hlength : message.length ≤ 2 ^ 31 - 1) :
    Record.Fits e := by
  obtain ⟨hlogType, hinline, hdictionary, hends⟩ := Encoded.length_of_ofMessage h
  have hmax : Cursor.lengthMax = 2 ^ 32 - 1 := rfl
  constructor <;> omega

/-- An open serializer makes a record of every message whose length is a signed
    32-bit number. -/
theorem exists_serialize {s : Serializer} (h : s.closed = false) {event : Event}
    (hlength : event.message.length ≤ 2 ^ 31 - 1) :
    ∃ record, s.serialize event = .ok (record, s.setRunning event.timestamp) := by
  obtain ⟨e, he⟩ := Encoded.exists_ofMessage s.width hlength
  -- no field of an encoded message is longer than twice the message
  have hrecord := Record.toBytes_eq_ok_iff (r := ⟨e, s.storedTime event.timestamp⟩) |>.2
    ⟨fits_of_ofMessage he hlength, rfl⟩
  exact ⟨_, (serialize_eq_ok_iff h).2 ⟨e, he, hrecord, rfl⟩⟩

theorem exists_serializeAll {s : Serializer} (h : s.closed = false) {events : List Event}
    (hlength : ∀ event ∈ events, event.message.length ≤ 2 ^ 31 - 1) :
    ∃ written, s.serializeAll events = .ok written := by
  induction events generalizing s with
  | nil => exact ⟨[], rfl⟩
  | cons event rest ih =>
    obtain ⟨record, hrecord⟩ := exists_serialize h (hlength event (List.mem_cons_self ..))
    obtain ⟨written, hwritten⟩ := ih (s := s.setRunning event.timestamp)
      (by rw [closed_setRunning, h]) fun event hmem => hlength event (List.mem_cons_of_mem _ hmem)
    exact ⟨_, serializeAll_cons_eq_ok_iff.2 ⟨record, _, written, hrecord, hwritten, rfl⟩⟩

end Serializer

namespace Deserializer

/-! ### One event -/

/-- The deserializer is in step with the serializer. -/
structure Follows (d : Deserializer) (s : Serializer) : Prop where
  live : d.Live
  closed : s.closed = false
  width : d.width = s.width
  running : d.runningTimestamp? = s.runningTimestamp?

/-- What is added to the running timestamp is what was subtracted from it. -/
theorem eventTime_storedTime {d : Deserializer} {s : Serializer} (h : d.Follows s)
    (timestamp : Int64) : s.width.eventTime d.running (s.storedTime timestamp) = timestamp := by
  have hwidth := h.width
  have hrunning := h.running
  unfold runningTimestamp? Serializer.runningTimestamp? at hrunning
  unfold Width.eventTime Serializer.storedTime
  cases hs : s.width with
  | fourByte =>
    -- both operations wrap around, so this holds for any two timestamps
    simp only [hwidth, hs, Option.some.injEq] at hrunning ⊢
    rw [hrunning, Int64.add_comm, Int64.sub_add_cancel]
  | eightByte => rfl

theorem runningTimestamp?_commit (d : Deserializer) (text : Bytes) (timestamp : Int64) :
    ((d.withText text).commit timestamp).runningTimestamp? = d.width.running? timestamp :=
  rfl

/-- An event that was serialized is read, and both sides stay in step. -/
theorem next_of_serialize {d : Deserializer} {s s' : Serializer} {event : Event} {record : Bytes}
    (h : d.Follows s) (hs : s.serialize event = .ok (record, s')) (rest : Bytes) :
    ∃ d', d.next (record ++ rest) = (.ok (event, record.length), d') ∧ d'.Follows s' ∧
      s'.width = s.width ∧ s'.runningTimestamp? = s.width.running? event.timestamp := by
  obtain ⟨e, he, hrecord, rfl⟩ := (Serializer.serialize_eq_ok_iff h.closed).1 hs
  have hrender : e.render = ⟨event.message, none⟩ := Encoded.renderOnto_of_ofMessage he []
  have hnext := next_toBytes_append h.live h.width hrecord hrender rest
  rw [eventTime_storedTime h] at hnext
  refine ⟨_, hnext, ⟨⟨h.live.closed, h.live.ended⟩, ?_, ?_, ?_⟩, by simp, by simp⟩
  · rw [Serializer.closed_setRunning, h.closed]
  · rw [Serializer.width_setRunning, ← h.width]
    rfl
  · rw [runningTimestamp?_commit, Serializer.runningTimestamp?_setRunning, h.width]

/-! ### All events -/

/-- Events that were serialized are read in order, each from its own record.  Then
    what stands behind the records is read by a deserializer that is in step. -/
theorem transcript_append_of_serializeAll {d : Deserializer} {s : Serializer}
    {events : List Event} {written : List Written} (h : d.Follows s)
    (hs : s.serializeAll events = .ok written) (offset : Nat) (rest : Bytes) :
    written.map Written.event = events ∧
      (∀ x ∈ written, x.after.runningTimestamp? = s.width.running? x.event.timestamp) ∧
      ∃ (d' : Deserializer) (s' : Serializer), d'.Follows s' ∧
        d.transcript offset (written.flatMap Written.record ++ rest) =
          (d'.transcript (offset + (written.flatMap Written.record).length) rest).prepend
            (Written.entries offset written) := by
  -- the invariant is that the deserializer follows the serializer
  induction events generalizing d s written offset with
  | nil =>
    cases hs
    exact ⟨rfl, fun _ hx => absurd hx List.not_mem_nil, d, s, h, rfl⟩
  | cons event events ih =>
    obtain ⟨record, s₁, tail, hrecord, htail, rfl⟩ := Serializer.serializeAll_cons_eq_ok_iff.1 hs
    obtain ⟨d₁, hnext, hfollows, hwidth, hrunning⟩ :=
      next_of_serialize h hrecord (tail.flatMap Written.record ++ rest)
    obtain ⟨hevents, hall, d', s', hfollows', htranscript⟩ :=
      ih hfollows htail (offset + record.length)
    refine ⟨congrArg (event :: ·) hevents, ?_, d', s', hfollows', ?_⟩
    · intro x hx
      rcases List.mem_cons.1 hx with rfl | hx
      · exact hrunning
      · rw [hall x hx, hwidth]
    · rw [List.flatMap_cons, List.append_assoc, transcript_of_ok hnext, List.drop_left,
        htranscript, hfollows.running, List.length_append, ← Nat.add_assoc]
      rfl

/-- Events that were serialized are read in order, each from its own record, and
    then the end of the stream is met. -/
theorem transcript_of_serializeAll {d : Deserializer} {s : Serializer} {events : List Event}
    {written : List Written} (h : d.Follows s) (hs : s.serializeAll events = .ok written)
    (offset : Nat) :
    written.map Written.event = events ∧
      (∀ x ∈ written, x.after.runningTimestamp? = s.width.running? x.event.timestamp) ∧
      d.transcript offset (written.flatMap Written.record ++ [Record.endTag]) =
        ⟨Written.entries offset written, .endOfStream,
          offset + (written.flatMap Written.record).length⟩ := by
  obtain ⟨hevents, hall, d', s', hfollows, htranscript⟩ :=
    transcript_append_of_serializeAll h hs offset [Record.endTag]
  refine ⟨hevents, hall, ?_⟩
  rw [htranscript, transcript_of_error (next_endTag hfollows.live []), Transcript.prepend,
    List.append_nil]

end Deserializer

/-! ### Whole streams -/

namespace Serializer

/-- A new serializer, and the deserializer that reads its preamble. -/
theorem create_eq_ok_iff {width : Width} {info : TimestampInfo} {reference : Int64}
    {s : Serializer} {preamble : Bytes} :
    create width info reference = .ok (s, preamble) ↔
      Preamble.toBytes ⟨width, info, reference⟩ = .ok preamble ∧
        s = ⟨width, info, (Preamble.kept ⟨width, info, reference⟩).reference, false⟩ := by
  simp only [create, Result.bind_eq_ok_iff, pure, Except.pure, Except.ok.injEq, Prod.mk.injEq]
  constructor
  · rintro ⟨bytes, hbytes, rfl, rfl⟩
    exact ⟨hbytes, rfl⟩
  · rintro ⟨hbytes, rfl⟩
    exact ⟨preamble, hbytes, rfl, rfl⟩

/-- **Streams survive serializing.**  Whatever the events are, as long as the
    length of each message is a signed 32-bit number, they can all be
    serialized.  From the preamble, the records and the tag of the end of the
    stream, the same events are read in order, each from the bytes of its own
    record.  After each event both sides have the same running timestamp: that
    of the event in a four-byte stream, and none in an eight-byte stream. -/
theorem session_of_create {width : Width} {info : TimestampInfo} {reference : Int64}
    {s : Serializer} {preamble : Bytes}
    (h : create width info reference = .ok (s, preamble)) {events : List Event}
    (hlength : ∀ event ∈ events, event.message.length ≤ 2 ^ 31 - 1) :
    ∃ written, s.serializeAll events = .ok written ∧ written.map Written.event = events ∧
      (∀ x ∈ written, x.after.runningTimestamp? = width.running? x.event.timestamp) ∧
      Deserializer.session
          (preamble ++ (written.flatMap Written.record ++ [Record.endTag])) =
        .ok {
          width := width
          info := info
          running := width.running? reference
          offset := preamble.length
          transcript := ⟨Written.entries preamble.length written, .endOfStream,
            preamble.length + (written.flatMap Written.record).length⟩ } := by
  obtain ⟨hpreamble, rfl⟩ := create_eq_ok_iff.1 h
  obtain ⟨written, hwritten⟩ := exists_serializeAll (s := ⟨width, info, _, false⟩) rfl hlength
  have hfollows : (Deserializer.ofPreamble (Preamble.kept ⟨width, info, reference⟩)).Follows
      ⟨width, info, (Preamble.kept ⟨width, info, reference⟩).reference, false⟩ :=
    ⟨⟨rfl, rfl⟩, rfl, rfl, rfl⟩
  obtain ⟨hevents, hall, htranscript⟩ :=
    Deserializer.transcript_of_serializeAll hfollows hwritten preamble.length
  refine ⟨written, hwritten, hevents, hall, ?_⟩
  -- the reference timestamp of an eight-byte stream is not kept
  rw [Deserializer.session, Deserializer.ofBytes, Preamble.ofBytes_toBytes_append hpreamble]
  simp only [Except.map, List.drop_left, htranscript]
  cases width <;> rfl

/-- The differences between the least and the greatest timestamp do not fit into
    64 bits. -/
theorem session_of_create_extremes :
    ∃ s preamble written, create .fourByte ⟨"HH:mm", "", "UTC"⟩ (-1) = .ok (s, preamble) ∧
      s.serializeAll [⟨[0x11], Int64.minValue⟩, ⟨[], Int64.maxValue⟩, ⟨[0x37], Int64.minValue⟩] =
        .ok written ∧
      Deserializer.session
          (preamble ++ (written.flatMap Written.record ++ [Record.endTag])) =
        .ok {
          width := .fourByte
          info := ⟨"HH:mm", "", "UTC"⟩
          running := some (-1)
          offset := preamble.length
          transcript := ⟨Written.entries preamble.length written, .endOfStream,
            preamble.length + (written.flatMap Written.record).length⟩ } := by
  have hmetadata : (Preamble.metadata ⟨.fourByte, ⟨"HH:mm", "", "UTC"⟩, -1⟩).length ≤
      Preamble.metadataMax := by decide +kernel
  obtain ⟨preamble, hpreamble⟩ : ∃ preamble,
      Preamble.toBytes ⟨.fourByte, ⟨"HH:mm", "", "UTC"⟩, -1⟩ = .ok preamble :=
    ⟨_, Preamble.toBytes_eq_ok_iff.2 ⟨hmetadata, rfl⟩⟩
  have hcreate := create_eq_ok_iff.2 ⟨hpreamble, rfl⟩
  obtain ⟨written, hwritten, -, -, hsession⟩ := @session_of_create _ _ _ _ _ hcreate
    [⟨[0x11], Int64.minValue⟩, ⟨[], Int64.maxValue⟩, ⟨[0x37], Int64.minValue⟩] (by decide)
  exact ⟨_, preamble, written, hcreate, hwritten, hsession⟩

end Serializer

end LogCodec
