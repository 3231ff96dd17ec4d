import LogCodec.Proofs.Command.RoundTrip

/-! # What encoding stores

    When encoding a text succeeds, what is behind the path of the output is the stream of
    its events: a preamble, their records one after another, and the tag of the end.  This
    needs no bound on the lengths of the rows.

    - `Stores`: these bytes are the stream of some events behind a preamble.
    - `Stores.session`: which events are read from it.
    - `Stores.begins`: how a four-byte stream begins.
    - `Command.stores_of_encode`: a command that succeeds has stored the events of its
      text. -/

namespace LogCodec

/-! ### Streams of events -/

/-- These bytes are the stream that a serializer with this preamble makes of the events. -/
def Stores (p : Preamble) (events : List Event) (stream : Bytes) : Prop :=
  ∃ s preamble written, Serializer.create p.width p.info p.reference = .ok (s, preamble) ∧
    s.serializeAll events = .ok written ∧
    stream = preamble ++ (written.flatMap Written.record ++ [Record.endTag])

/-- What a four-byte stream begins with: this reference timestamp in the preamble, and
    this difference in the first record. -/
def Begins (stream : Bytes) (reference difference : Int64) : Prop :=
  ∃ p size record n, Preamble.ofBytes stream = .ok (p, size) ∧ p.width = .fourByte ∧
    p.reference = reference ∧ Record.front .fourByte (stream.drop size) = .event record n ∧
    record.time = difference

section

variable {p : Preamble} {events : List Event} {stream : Bytes}

/-- The events are read from the stream, and then its end is met. -/
theorem Stores.session (h : Stores p events stream) :
    ∃ session, Deserializer.session stream = .ok session ∧ session.events = events ∧
      session.transcript.error = .endOfStream := by
  obtain ⟨s, preamble, written, hcreate, hwritten, rfl⟩ := h
  obtain ⟨hmap, -, hsession⟩ := Deserializer.session_of_serializeAll hcreate hwritten
  refine ⟨_, hsession, ?_, rfl⟩
  rw [← hmap]
  exact Written.event_entries ..

/-- The first difference is that to the reference timestamp. -/
theorem Stores.begins {event : Event} {rest : List Event} (h : Stores p (event :: rest) stream)
    (hwidth : p.width = .fourByte) :
    Begins stream p.reference (event.timestamp - p.reference) := by
  obtain ⟨width, info, reference⟩ := p
  dsimp only at hwidth
  subst hwidth
  obtain ⟨s, preamble, written, hcreate, hwritten, rfl⟩ := h
  obtain ⟨hpreamble, rfl⟩ := Serializer.create_eq_ok_iff.1 hcreate
  obtain ⟨record, s', tail, hserialize, -, rfl⟩ := Serializer.serializeAll_cons_eq_ok_iff.1 hwritten
  obtain ⟨e, -, hrecord, -⟩ := (Serializer.serialize_eq_ok_iff rfl).1 hserialize
  refine ⟨_, preamble.length, ⟨e, event.timestamp - reference⟩, record.length,
    Preamble.ofBytes_toBytes_append hpreamble _, rfl, rfl, ?_, rfl⟩
  rw [List.drop_left, List.flatMap_cons, List.append_assoc]
  exact Record.front_toBytes_append hrecord _

end

/-- A stream begins in one way. -/
theorem Begins.unique {stream : Bytes} {reference difference reference' difference' : Int64}
    (h : Begins stream reference difference) (h' : Begins stream reference' difference') :
    reference = reference' ∧ difference = difference' := by
  obtain ⟨p, size, record, n, hpreamble, -, rfl, hfront, rfl⟩ := h
  obtain ⟨p', size', record', n', hpreamble', -, rfl, hfront', rfl⟩ := h'
  rw [hpreamble] at hpreamble'
  cases hpreamble'
  rw [hfront] at hfront'
  cases hfront'
  exact ⟨rfl, rfl⟩

/-! ### Commands that succeed -/

/-- Behind the path of the standard input and output is what it gives or was given. -/
theorem Directory.holds_standard_iff {d : Directory} {input data : Bytes} :
    d.Holds input standardPath data ↔ input = data := by
  rw [Holds, if_pos rfl]

/-- When no event fails, all were written. -/
theorem Writer.writeEach_of_writeEvents {w w' : Writer} {events : List Event}
    (h : w.writeEvents events = (.ok (), w')) : w.writeEach events = some (events, w') := by
  fun_induction writeEvents w events with
  | case1 w =>
    cases h
    rfl
  | case2 => cases h
  | case3 w event rest w₁ hwrite ih => simp only [writeEach, hwrite, ih h, Option.map_some]

namespace Command

variable {compress : Bytes → Bytes} {d d' : Directory} {input text : Bytes}
  {path output : String} {encoded : Ending} {options : StreamOptions}

/-- What is written for a text that could be encoded. -/
theorem stores_of_encodeText {stream : Bytes} {tally : Tally}
    (h : encodeText path output options (.ofBytes text) = ⟨stream, .ok tally⟩) :
    Stores (preambleOf options text) (TextLog.events (TextLog.lines text)) stream := by
  simp only [encodeText, TextLog.linesOf, Contents.ofBytes] at h
  split at h
  · cases h
  rename_i w hcreate
  split at h
  · cases h
  rename_i w' hevents
  unfold finishStream at h
  split at h
  · cases h
  rename_i sink hfinish
  cases h
  obtain ⟨preamble, hpreamble, hsink, -⟩ := Writer.create_eq_ok hcreate
  obtain ⟨-, written, hwritten, hsink', -⟩ :=
    Writer.wrote_of_writeEach (Writer.writeEach_of_writeEvents hevents)
  refine ⟨_, preamble, written, hpreamble, hwritten, ?_⟩
  have hempty : Sink.empty.bytes = [] := rfl
  rw [Writer.bytes_of_finish hfinish, hsink', hsink, hempty, List.nil_append, List.append_assoc]

/-- **A command that succeeds** has stored the events of its text. -/
theorem stores_of_encode (hlossless : Gzip.Lossless compress) (htext : d.Holds input path text)
    (hapart : d.Apart path output)
    (hencode : (encode path output options).runIn compress input d = (encoded, d')) {tally : Tally}
    (hok : encoded.result = .ok tally) :
    ∃ stream, d'.Holds encoded.written output stream ∧
      Stores (preambleOf options text) (TextLog.events (TextLog.lines text)) stream := by
  have hboth : Fits options text ∧ d.CanWrite output := by
    by_contra h
    obtain ⟨failure, hfailure⟩ := encode_fails htext hapart h
    rw [hencode, hok] at hfailure
    cases hfailure
  rw [runIn_encode_of_holds htext hapart options] at hencode
  cases hending : encodeText path output options (.ofBytes text) with
  | mk stream result =>
    rw [hending] at hencode
    cases result with
    | error failure =>
      -- a failure would have been passed on
      have hfailure : ∃ failure', ((writeOutput (Directory.files input) compress output
          ⟨stream, .error failure⟩).run d).1.result = .error failure' :=
        result_writeOutput _ rfl
      rw [hencode, hok] at hfailure
      obtain ⟨failure', hfailure⟩ := hfailure
      cases hfailure
    | ok tally' =>
      obtain ⟨written, d₁, hwrite, hholds⟩ := holds_of_writeOutput hlossless hboth.2 stream tally'
      rw [hencode] at hwrite
      cases hwrite
      exact ⟨stream, hholds, stores_of_encodeText hending⟩

/-- It succeeds unless a message is too long or one of the other two things goes wrong. -/
theorem encode_succeeds (hlossless : Gzip.Lossless compress) (htext : d.Holds input path text)
    (hapart : d.Apart path output)
    (hencode : (encode path output options).runIn compress input d = (encoded, d'))
    (hfits : Fits options text) (hcan : d.CanWrite output)
    (hlength : ∀ event ∈ TextLog.events (TextLog.lines text),
      event.message.length ≤ 2 ^ 31 - 1) : ∃ tally, encoded.result = .ok tally := by
  obtain ⟨written, tally, d₁, -, hencoded, -⟩ :=
    decode_of_fits hlossless htext hapart hfits hcan hlength
  rw [hencode] at hencoded
  cases hencoded
  exact ⟨tally, rfl⟩

end Command

end LogCodec
