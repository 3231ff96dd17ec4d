import LogCodec.Proofs.Command.Stored

/-! # Printed texts are encoded without loss

    What decoding prints of events with timestamps as numbers is a text again.  When each
    message fits into a line, it tells the same events, so encoding it stores them and
    decoding prints it once more.

    - `Command.Reencodes`: what is known of the text that is printed of some events.
    - `Command.reencodes`: it holds whenever the messages fit into lines. -/

namespace LogCodec.Command

section

variable {compress : Bytes → Bytes} {d d' : Directory} {input stream text : Bytes}
  {path output : String}
  {encoded : Ending} {options : StreamOptions} {session : Session}

/-- Decoding a stream prints the events that are read from it. -/
theorem decode_of_holds (hstream : d.Holds input path stream)
    (hsession : Deserializer.session stream = .ok session) :
    ∃ r : Reader, (decode path .epoch).runIn compress input d =
      (⟨session.events.flatMap TextLog.printed,
        conclude (.readEvent path) session.transcript.error r⟩, d) := by
  obtain ⟨file, hopens, hsteady, hdata⟩ := hstream.exists_source
  rw [← hdata] at hsession
  obtain ⟨r, -, hdecoded⟩ := decodeStream_of_session hsteady hsession path .epoch
  refine ⟨r, ?_⟩
  rw [runIn_decode hopens, hdecoded]
  rfl

/-- What is stored of a text is decoded again. -/
theorem decode_of_encode (hlossless : Gzip.Lossless compress) (htext : d.Holds input path text)
    (hapart : d.Apart path output)
    (hencode : (encode path output options).runIn compress input d = (encoded, d')) {tally : Tally}
    (hok : encoded.result = .ok tally) :
    ∃ stream session tally', d'.Holds encoded.written output stream ∧
      Deserializer.session stream = .ok session ∧
      session.events = TextLog.events (TextLog.lines text) ∧
      session.transcript.error = .endOfStream ∧
      (decode output .epoch).runIn compress encoded.written d' =
        (⟨(TextLog.events (TextLog.lines text)).flatMap TextLog.printed, .ok tally'⟩, d') := by
  obtain ⟨stream, hholds, hstores⟩ := stores_of_encode hlossless htext hapart hencode hok
  obtain ⟨session, hsession, hevents, herror⟩ := hstores.session
  obtain ⟨r, hdecoded⟩ := decode_of_holds hholds hsession
  rw [hevents, herror] at hdecoded
  exact ⟨stream, session, _, hholds, hsession, hevents, herror, hdecoded⟩

end

/-- What is known of a text that is printed of some events, when files are compressed in this
    way. -/
structure Reencodes (compress : Bytes → Bytes) (events : List Event) (text : Bytes) : Prop where
  /-- It is what decoding prints of every stream from which these events are read. -/
  printed : ∀ (d : Directory) (input stream : Bytes) (path : String) (session : Session),
    d.Holds input path stream → Deserializer.session stream = .ok session →
    session.events = events → ((decode path .epoch).runIn compress input d).1.written = text
  /-- It tells these events and no others. -/
  parsed : ∀ told, (∃ rows, TextLog.Rows text rows ∧ TextLog.Told 0 rows told) ↔ told = events
  /-- For either width and with any options it can be encoded, if messages and metadata are
      not too long and the output can be written. -/
  encodes : ∀ (d : Directory) (input : Bytes) (path output : String) (options : StreamOptions),
    d.Holds input path text → d.Apart path output → Fits options text → d.CanWrite output →
    (∀ event ∈ events, event.message.length ≤ 2 ^ 31 - 1) →
    ∃ tally, ((encode path output options).runIn compress input d).1.result = .ok tally
  /-- Whenever it was encoded, these events are read from the output, and decoding the output
      prints this text again. -/
  decodes : ∀ (d d' : Directory) (input : Bytes) (path output : String)
    (options : StreamOptions) (encoded : Ending) (tally : Tally),
    d.Holds input path text → d.Apart path output →
    (encode path output options).runIn compress input d = (encoded, d') →
    encoded.result = .ok tally →
    ∃ stream session tally', d'.Holds encoded.written output stream ∧
      Deserializer.session stream = .ok session ∧ session.events = events ∧
      session.transcript.error = .endOfStream ∧
      (decode output .epoch).runIn compress encoded.written d' = (⟨text, .ok tally'⟩, d')

/-- **Printed texts are encoded without loss.**  Take any events whose messages hold no
    newline and do not end with a carriage return, with any timestamps.  The text that
    decoding prints of them tells just these events.  Encoding it, for either width, stores
    them, and decoding what was stored prints the same text again. -/
theorem reencodes {compress : Bytes → Bytes} (hlossless : Gzip.Lossless compress)
    {events : List Event} (h : ∀ event ∈ events, TextLog.OneLine event.message) :
    Reencodes compress events (events.flatMap TextLog.printed) := by
  have hevents := TextLog.events_lines_printed h
  refine ⟨?_, ?_, ?_, ?_⟩
  · intro d input stream path session hholds hsession hsame
    obtain ⟨r, hdecoded⟩ := decode_of_holds hholds hsession
    rw [hdecoded, hsame]
  · intro told
    constructor
    · intro hexists
      obtain ⟨rows, hrows, htold⟩ := hexists
      rw [← hevents, TextLog.rows_iff.1 hrows]
      exact (TextLog.told_iff.1 htold).symm
    · intro hsame
      rw [hsame]
      exact ⟨_, TextLog.rows_printed h, TextLog.told_printed h 0⟩
  · intro d input path output options htext hapart hfits hcan hlength
    rw [← hevents] at hlength
    exact encode_succeeds hlossless htext hapart rfl hfits hcan hlength
  · intro d d' input path output options encoded tally htext hapart hencode hok
    obtain ⟨stream, session, tally', hholds, hsession, hread, herror, hdecoded⟩ :=
      decode_of_encode hlossless htext hapart hencode hok
    rw [hevents] at hread hdecoded
    exact ⟨stream, session, tally', hholds, hsession, hread, herror, hdecoded⟩

/-- An empty message at the least timestamp, and one that starts with a space and a number
    and holds a carriage return. -/
theorem reencodes_spaces :
    Reencodes Gzip.pack [⟨[], Int64.minValue⟩, ⟨[0x20, 0x35, 0x0D, 0x20], -1⟩]
      [0x2D, 0x39, 0x32, 0x32, 0x33, 0x33, 0x37, 0x32, 0x30, 0x33, 0x36, 0x38, 0x35, 0x34, 0x37,
        0x37, 0x35, 0x38, 0x30, 0x38, 0x20, 0x0A,
        0x2D, 0x31, 0x20, 0x20, 0x35, 0x0D, 0x20, 0x0A] := by
  have hprinted : List.flatMap TextLog.printed
      [⟨[], Int64.minValue⟩, ⟨[0x20, 0x35, 0x0D, 0x20], -1⟩] =
      [0x2D, 0x39, 0x32, 0x32, 0x33, 0x33, 0x37, 0x32, 0x30, 0x33, 0x36, 0x38, 0x35, 0x34, 0x37,
        0x37, 0x35, 0x38, 0x30, 0x38, 0x20, 0x0A,
        0x2D, 0x31, 0x20, 0x20, 0x35, 0x0D, 0x20, 0x0A] := by
    decide +kernel
  rw [← hprinted]
  apply reencodes Gzip.lossless_pack
  intro event hmem
  rcases List.mem_cons.1 hmem with rfl | hmem
  · exact ⟨List.not_mem_nil, by simp⟩
  · rw [List.mem_singleton.1 hmem]
    refine ⟨by decide, ?_⟩
    intro body hbody
    exact absurd (congrArg List.getLast? hbody) (by rw [List.getLast?_concat]; decide)

end LogCodec.Command
