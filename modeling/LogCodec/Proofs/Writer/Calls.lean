import LogCodec.Proofs.Stream.RoundTrip
import LogCodec.Proofs.Writer.Sink
import LogCodec.Writer.Basic

/-! # Writing to a sink that fails

    A sink may accept bytes in any pieces, be interrupted, accept nothing, or
    fail.  As long as each call of `write` that fails leaves nothing of its record
    in the sink, the stream is that of the other calls: the running timestamp is
    put back, so that the next record is relative to the last event in the
    stream, whether that is the same event again or another one.

    * `Writer.writeEach`: some calls of `write`, and the events of those that
      succeeded.
    * `Writer.write_eq_ok`, `Writer.write_eq_error`: what one call does.
    * `Writer.wrote_of_writeEach`: what all calls do.
    * `Writer.sink_of_writeEach`: the sink of a new writer holds the preamble and the
      records of the events whose calls succeeded, and these events are read. -/

namespace LogCodec

/-! ### Records that were not written -/

namespace Serializer

/-- Only an open serializer makes records. -/
theorem closed_of_serialize {s s' : Serializer} {event : Event} {record : Bytes}
    (h : s.serialize event = .ok (record, s')) : s.closed = false := by
  cases hclosed : s.closed with
  | false => rfl
  | true =>
    rw [serialize, hclosed] at h
    cases h

/-- Putting the running timestamp back undoes that it was set. -/
theorem rewind_setRunning (s : Serializer) (timestamp : Int64) :
    (s.setRunning timestamp).rewind s.runningTimestamp? = s := by
  obtain ⟨width, info, running, closed⟩ := s
  cases width <;> rfl

theorem closed_after_serialize {s s' : Serializer} {event : Event} {record : Bytes}
    (h : s.serialize event = .ok (record, s')) : s'.closed = s.closed := by
  obtain ⟨e, -, -, rfl⟩ := (serialize_eq_ok_iff (closed_of_serialize h)).1 h
  exact closed_setRunning s event.timestamp

/-- A record that was made and not written leaves no trace in the serializer. -/
theorem rewind_of_serialize {s s' : Serializer} {event : Event} {record : Bytes}
    (h : s.serialize event = .ok (record, s')) : s'.rewind s.runningTimestamp? = s := by
  obtain ⟨e, -, -, rfl⟩ := (serialize_eq_ok_iff (closed_of_serialize h)).1 h
  exact rewind_setRunning s event.timestamp

end Serializer

/-! ### Reading what was written -/

/-- What is read of a stream with a preamble of this size and these records, when
    reading fails with `error` behind them. -/
def Session.ofWritten (width : Width) (info : TimestampInfo) (reference : Int64) (size : Nat)
    (written : List Written) (error : Error) : Session where
  width := width
  info := info
  running := width.running? reference
  offset := size
  transcript := ⟨Written.entries size written, error,
    size + (written.flatMap Written.record).length⟩

/-- Behind the preamble of a new serializer reads a deserializer that is in step with
    it. -/
theorem Deserializer.session_of_preamble {width : Width} {info : TimestampInfo} {reference : Int64}
    {s : Serializer} {preamble : Bytes}
    (h : Serializer.create width info reference = .ok (s, preamble)) :
    ∃ d : Deserializer, d.Follows s ∧ ∀ rest, session (preamble ++ rest) =
      .ok {
        width := width
        info := info
        running := width.running? reference
        offset := preamble.length
        transcript := d.transcript preamble.length rest } := by
  obtain ⟨hpreamble, rfl⟩ := Serializer.create_eq_ok_iff.1 h
  refine ⟨.ofPreamble (Preamble.kept ⟨width, info, reference⟩), ⟨⟨rfl, rfl⟩, rfl, rfl, rfl⟩,
    fun rest => ?_⟩
  rw [session, ofBytes, Preamble.ofBytes_toBytes_append hpreamble]
  simp only [Except.map, List.drop_left]
  -- the reference timestamp of an eight-byte stream is not kept
  cases width <;> rfl

/-- The records of a new serializer are read behind its preamble.  Then the stream
    ends, or turns out to be cut short. -/
theorem Deserializer.session_of_serializeAll {width : Width} {info : TimestampInfo}
    {reference : Int64} {s : Serializer} {preamble : Bytes} {events : List Event}
    {written : List Written} (h : Serializer.create width info reference = .ok (s, preamble))
    (hs : s.serializeAll events = .ok written) :
    written.map Written.event = events ∧
      session (preamble ++ written.flatMap Written.record) =
        .ok (.ofWritten width info reference preamble.length written .incomplete) ∧
      session (preamble ++ (written.flatMap Written.record ++ [Record.endTag])) =
        .ok (.ofWritten width info reference preamble.length written .endOfStream) := by
  obtain ⟨d, hfollows, hsession⟩ := session_of_preamble h
  obtain ⟨hevents, -, hended⟩ := transcript_of_serializeAll hfollows hs preamble.length
  obtain ⟨-, -, d', s', hfollows', hcut⟩ :=
    transcript_append_of_serializeAll hfollows hs preamble.length []
  rw [List.append_nil, transcript_of_error (next_nil hfollows'.live), Transcript.prepend,
    List.append_nil] at hcut
  refine ⟨hevents, ?_, ?_⟩
  · rw [hsession, hcut]
    rfl
  · rw [hsession, hended]
    rfl

/-! ### Calls -/

namespace Writer

/-- Calls `write` for some events, one after another, whichever of the calls fail.
    Gives the events whose calls succeeded and the writer after all, or nothing when
    a call failed that left a part of its record in the sink. -/
def writeEach (w : Writer) : List Event → Option (List Event × Writer)
  | [] => some ([], w)
  | event :: rest =>
    match w.write event with
    | (.ok (), w') => (w'.writeEach rest).map fun (accepted, w') => (event :: accepted, w')
    | (.error _, w') => if w'.sink.bytes = w.sink.bytes then w'.writeEach rest else none

section

variable {w w' : Writer} {event : Event}

/-- A call that succeeds puts the record of the event behind what the sink holds. -/
theorem write_eq_ok (h : w.write event = (.ok (), w')) :
    ∃ record, w.serializer.serialize event = .ok (record, w'.serializer) ∧
      w'.sink.bytes = w.sink.bytes ++ record ∧ w'.events = w.events + 1 ∧
      w'.bytes = w.bytes + record.length := by
  unfold write at h
  dsimp only at h
  split at h
  · cases h
  case _ record serializer hserialize =>
    split at h
    · cases h
    case _ sink hsink =>
      cases h
      exact ⟨record, hserialize, Sink.bytes_of_writeAll hsink, rfl, rfl⟩

/-- A call that fails changes the sink only, whether it was the record that could
    not be made or the sink that failed. -/
theorem write_eq_error {error : Error} (h : w.write event = (.error error, w')) :
    w' = { w with sink := w'.sink } := by
  unfold write at h
  dsimp only at h
  split at h
  · cases h
    rfl
  case _ record serializer hserialize =>
    split at h
    · cases h
      rw [Serializer.rewind_of_serialize hserialize]
    · cases h

/-- A sink that accepts everything gets every event, whatever it did before. -/
theorem write_of_plan_eq_nil (hclosed : w.serializer.closed = false) (hplan : w.sink.plan = [])
    (hbound : w.sink.bound = none) (hlength : event.message.length ≤ 2 ^ 31 - 1) :
    (w.write event).1 = .ok () := by
  obtain ⟨record, hrecord⟩ := Serializer.exists_serialize hclosed hlength
  have haccepts := Sink.writeAll_of_plan_eq_nil hplan hbound record
  unfold write
  dsimp only
  rw [hrecord]
  dsimp only
  split
  case _ reason sink hsink =>
    rw [hsink] at haccepts
    cases haccepts
  · rfl

/-- What is in the sink after some calls are the records that the serializer makes
    of the events whose calls succeeded, as if there had been no others. -/
theorem wrote_of_writeEach {events accepted : List Event}
    (h : w.writeEach events = some (accepted, w')) :
    w'.serializer.closed = w.serializer.closed ∧
      ∃ written, w.serializer.serializeAll accepted = .ok written ∧
        w'.sink.bytes = w.sink.bytes ++ written.flatMap Written.record ∧
        w'.events = w.events + accepted.length ∧
        w'.bytes = w.bytes + (written.flatMap Written.record).length := by
  fun_induction writeEach w events generalizing accepted with
  | case1 w =>
    cases h
    exact ⟨rfl, [], rfl, (List.append_nil _).symm, rfl, rfl⟩
  | case2 w event rest w₁ hwrite ih =>
    obtain ⟨⟨accepted₁, w₂⟩, hrest, heq⟩ := Option.map_eq_some_iff.1 h
    cases heq
    obtain ⟨record, hserialize, hsink, hevents, hbytes⟩ := write_eq_ok hwrite
    obtain ⟨hclosed, written, hwritten, hsink', hevents', hbytes'⟩ := ih hrest
    refine ⟨hclosed.trans (Serializer.closed_after_serialize hserialize),
      ⟨event, record, w₁.serializer⟩ :: written,
      Serializer.serializeAll_cons_eq_ok_iff.2 ⟨_, _, _, hserialize, hwritten, rfl⟩, ?_, ?_, ?_⟩
    · rw [hsink', hsink, List.flatMap_cons, List.append_assoc]
    · rw [hevents', hevents, List.length_cons]
      omega
    · rw [hbytes', hbytes, List.flatMap_cons, List.length_append, Nat.add_assoc]
  | case3 w event rest error w₁ hwrite hsink ih =>
    -- the serializer that the later records are made by is the one from before this call
    obtain ⟨hclosed, written, hwritten, hsink', hcounts⟩ := ih h
    rw [write_eq_error hwrite] at hclosed hwritten hcounts
    exact ⟨hclosed, written, hwritten, hsink ▸ hsink', hcounts⟩
  | case4 => cases h

end

/-! ### From the preamble to the end -/

section

variable {w : Writer} {sink : Sink} {width : Width} {info : TimestampInfo} {reference : Int64}

/-- A new writer has a new serializer, and the preamble is in the sink. -/
theorem create_eq_ok (h : create sink width info reference = .ok w) :
    ∃ preamble, Serializer.create width info reference = .ok (w.serializer, preamble) ∧
      w.sink.bytes = sink.bytes ++ preamble ∧ w.events = 0 ∧ w.bytes = preamble.length := by
  unfold create at h
  split at h
  · cases h
  case _ serializer preamble hcreate =>
    split at h
    · cases h
    case _ sink' hsink =>
      cases h
      exact ⟨preamble, hcreate, Sink.bytes_of_writeAll hsink, rfl, rfl⟩

/-- Ending a stream puts the tag of its end behind it. -/
theorem bytes_of_finish {sink' : Sink} (h : w.finish = (.ok (), sink')) :
    sink'.bytes = w.sink.bytes ++ [Record.endTag] := by
  unfold finish at h
  split at h
  · cases h
  split at h
  · cases h
  case _ hsink =>
    split at h
    · cases h
    · cases h
      exact Sink.bytes_of_writeAll hsink

/-- **Only the events whose calls succeeded are in the stream.**  Whatever the sink
    does, however the calls follow one another, and whichever events they are for:
    as long as no failed call leaves a part of its record in the sink, the new
    writer has put into the sink the preamble, and the records that a new
    serializer makes of just the events whose calls succeeded, and it has counted
    those events and these bytes.  Ending the stream adds the tag of its end.  With
    this tag and without it, those events are read from these bytes, in order, each
    with its own timestamp.  And once the sink accepts everything, it gets whatever
    event is written next. -/
theorem sink_of_writeEach (hcreate : create sink width info reference = .ok w)
    {events accepted : List Event} {w' : Writer}
    (hcalls : w.writeEach events = some (accepted, w')) :
    ∃ s preamble written, Serializer.create width info reference = .ok (s, preamble) ∧
      s.serializeAll accepted = .ok written ∧ written.map Written.event = accepted ∧
      w'.sink.bytes = sink.bytes ++ (preamble ++ written.flatMap Written.record) ∧
      w'.events = accepted.length ∧
      w'.bytes = (preamble ++ written.flatMap Written.record).length ∧
      (∀ sink', w'.finish = (.ok (), sink') →
        sink'.bytes = w'.sink.bytes ++ [Record.endTag]) ∧
      Deserializer.session (preamble ++ written.flatMap Written.record) =
        .ok (.ofWritten width info reference preamble.length written .incomplete) ∧
      Deserializer.session (preamble ++ (written.flatMap Written.record ++ [Record.endTag])) =
        .ok (.ofWritten width info reference preamble.length written .endOfStream) ∧
      (w'.sink.plan = [] → w'.sink.bound = none → ∀ event : Event,
        event.message.length ≤ 2 ^ 31 - 1 → (w'.write event).1 = .ok ()) := by
  obtain ⟨preamble, hpreamble, hsink, hevents, hbytes⟩ := create_eq_ok hcreate
  obtain ⟨hclosed, written, hwritten, hsink', hevents', hbytes'⟩ := wrote_of_writeEach hcalls
  obtain ⟨hmap, hcut, hended⟩ := Deserializer.session_of_serializeAll hpreamble hwritten
  have hopen : w'.serializer.closed = false := by
    obtain ⟨-, hnew⟩ := Serializer.create_eq_ok_iff.1 hpreamble
    rw [hclosed, hnew]
  refine ⟨w.serializer, preamble, written, hpreamble, hwritten, hmap, ?_, ?_, ?_,
    fun _ => bytes_of_finish, hcut, hended,
    fun hplan hbound _ => write_of_plan_eq_nil hopen hplan hbound⟩
  · rw [hsink', hsink, List.append_assoc]
  · rw [hevents', hevents, Nat.zero_add]
  · rw [hbytes', hbytes, List.length_append]

/-- A sink that accepts the preamble and the first record in parts, refuses the second
    record, accepts none of it the next time, and then all, and refuses one more. -/
def stumbling : Sink where
  pieces := []
  plan := [.accept (some 3), .interrupt, .accept none,
    .accept (some 1), .interrupt, .accept none,
    .reject "no space left", .interrupt, .accept (some 0), .accept (some 2), .accept none,
    .reject "no space left"]
  bound := none
  flushFailure := none

/-- The second event is written at the third attempt, and the next one never.  The
    difference of the last timestamp is that to the second event. -/
theorem sink_of_writeEach_stumbling :
    ∃ w w', create stumbling .fourByte ⟨"HH:mm", "", "UTC"⟩ 5 = .ok w ∧
      w.writeEach [⟨[0x11], 4⟩, ⟨[0x37], Int64.minValue⟩, ⟨[0x37], Int64.minValue⟩,
          ⟨[0x37], Int64.minValue⟩, ⟨[], 9⟩, ⟨[0x31, 0x2e, 0x30], 6⟩] =
        some ([⟨[0x11], 4⟩, ⟨[0x37], Int64.minValue⟩, ⟨[0x31, 0x2e, 0x30], 6⟩], w') ∧
      ∃ s preamble written, Serializer.create .fourByte ⟨"HH:mm", "", "UTC"⟩ 5 = .ok (s, preamble) ∧
        s.serializeAll [⟨[0x11], 4⟩, ⟨[0x37], Int64.minValue⟩, ⟨[0x31, 0x2e, 0x30], 6⟩] =
          .ok written ∧
        w'.sink.bytes = preamble ++ written.flatMap Written.record ∧ w'.events = 3 ∧
        w'.bytes = w'.sink.bytes.length ∧
        Deserializer.session w'.sink.bytes =
          .ok (.ofWritten .fourByte ⟨"HH:mm", "", "UTC"⟩ 5 preamble.length written
            .incomplete) := by
  have hrun : ((create stumbling .fourByte ⟨"HH:mm", "", "UTC"⟩ 5).toOption.bind
      (writeEach · [⟨[0x11], 4⟩, ⟨[0x37], Int64.minValue⟩, ⟨[0x37], Int64.minValue⟩,
        ⟨[0x37], Int64.minValue⟩, ⟨[], 9⟩, ⟨[0x31, 0x2e, 0x30], 6⟩])).map Prod.fst =
      some [⟨[0x11], 4⟩, ⟨[0x37], Int64.minValue⟩, ⟨[0x31, 0x2e, 0x30], 6⟩] := by
    decide +kernel
  cases hcreate : create stumbling .fourByte ⟨"HH:mm", "", "UTC"⟩ 5 with
  | error e =>
    rw [hcreate] at hrun
    cases hrun
  | ok w =>
    rw [hcreate] at hrun
    obtain ⟨⟨accepted, w'⟩, hcalls, rfl⟩ := Option.map_eq_some_iff.1 hrun
    obtain ⟨s, preamble, written, hpreamble, hwritten, -, hsink, hevents, hbytes, -, hsession, -, -⟩ :=
      sink_of_writeEach hcreate hcalls
    rw [show stumbling.bytes = [] from rfl, List.nil_append] at hsink
    refine ⟨w, w', rfl, hcalls, s, preamble, written, hpreamble, hwritten, hsink, hevents, ?_, ?_⟩
    · rw [hsink, hbytes]
    · rw [hsink, hsession]

end

end Writer

end LogCodec
