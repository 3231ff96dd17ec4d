import LogCodec.Proofs.Command.Encode
import LogCodec.Proofs.Command.Perform
import LogCodec.Proofs.Reader.Collect
import LogCodec.Proofs.TextLog

/-! # Encoded texts are decoded

    A text that was encoded is printed again event by event, whatever the width of the
    stream, its reference timestamp, and whether the files are compressed.

    - `Command.decodeStream_of_session`: decoding prints the events that are read.
    - `Command.decode_encode`: encoding into a file or the standard output, and decoding
      from there. -/

namespace LogCodec.Command

/-! ### Decoding -/

section

variable {stream : Source} (hsteady : stream.SteadyToEnd)

include hsteady

/-- A stream is opened when its preamble can be read, and then all that is read of it is
    in the session. -/
theorem open_of_session {session : Session} (h : Deserializer.session stream.data = .ok session) :
    ∃ r, Reader.open stream Window.defaultCapacity = .ok r ∧
      r.transcript = session.transcript := by
  have hopen := Reader.open_answers_of_toEnd hsteady Window.defaultCapacity
  obtain ⟨⟨deserializer, size⟩, hsaid, rfl⟩ := Result.map_eq_ok_iff.1 h
  rw [hsaid] at hopen
  obtain ⟨r, hr, hopened⟩ := hopen
  refine ⟨r, hr, ?_⟩
  rw [Reader.transcript_eq hopened.steady, hopened.deserializer, hopened.pending, hopened.offset,
    Nat.zero_add]

/-- Decoding prints the events that are read. -/
theorem decodeStream_of_session {session : Session}
    (h : Deserializer.session stream.data = .ok session) (path : String)
    (style : TextLog.TimestampStyle) :
    ∃ r : Reader, r.window.streamOffset = session.transcript.offset ∧
      decodeStream path style stream = ⟨TextLog.ofEvents style session.events,
        conclude (.readEvent path) session.transcript.error r⟩ := by
  obtain ⟨r, hopen, htranscript⟩ := open_of_session hsteady h
  obtain ⟨hitems, herror, hoffset⟩ := r.allEvents_eq
  rw [htranscript] at hitems herror hoffset
  refine ⟨r.allEvents.reader, hoffset, ?_⟩
  simp only [decodeStream, hopen, hitems, herror]
  rfl

end

/-! ### There and back -/

section

variable {compress : Bytes → Bytes} {d d' : Directory} {input text : Bytes}
  {path output : String} {encoded : Ending}

/-- What comes of encoding a text, and of what was written. -/
theorem runIn_encode_of_holds (htext : d.Holds input path text) (hapart : d.Apart path output)
    (options : StreamOptions) :
    (encode path output options).runIn compress input d =
      (writeOutput (Directory.files input) compress output
        (encodeText path output options (.ofBytes text))).run d := by
  obtain ⟨file, hopens, hsteady, hdata⟩ := htext.exists_source
  have hblock : 0 < blockSize := by decide
  rw [runIn_encode hopens hapart, Source.drain_of_toEnd hsteady hblock, hdata]

/-- The metadata of a stream of the text fits into the preamble. -/
def Fits (options : StreamOptions) (text : Bytes) : Prop :=
  (preambleOf options text).metadata.length ≤ Preamble.metadataMax

/-- Nothing else than these two can go wrong. -/
theorem encode_fails (htext : d.Holds input path text) (hapart : d.Apart path output)
    {options : StreamOptions} (h : ¬(Fits options text ∧ d.CanWrite output)) :
    ∃ failure, ((encode path output options).runIn compress input d).1.result = .error failure := by
  rw [runIn_encode_of_holds htext hapart options]
  by_cases hcan : d.CanWrite output
  · have hlong : Preamble.metadataMax < (preambleOf options text).metadata.length := by
      apply Nat.lt_of_not_le
      intro hfits
      exact h ⟨hfits, hcan⟩
    obtain ⟨failure, hfailure⟩ := encodeText_eq_error hlong
    exact result_writeOutput _ hfailure
  · exact result_writeOutput_error hcan _

/-- What comes of decoding the output when they do not. -/
theorem decode_of_fits (hlossless : Gzip.Lossless compress) (htext : d.Holds input path text)
    (hapart : d.Apart path output) {options : StreamOptions} (hfits : Fits options text)
    (hcan : d.CanWrite output)
    (hlength : ∀ event ∈ TextLog.events (TextLog.lines text),
      event.message.length ≤ 2 ^ 31 - 1) :
    ∃ written tally d' tally', (encode path output options).runIn compress input d =
        (⟨written, .ok tally⟩, d') ∧
      (decode output .epoch).runIn compress written d' =
        (⟨TextLog.ofEvents .epoch (TextLog.events (TextLog.lines text)), .ok tally'⟩, d') := by
  obtain ⟨stream, tally, session, hencoded, hsession, hevents, herror⟩ :=
    encodeText_eq_ok hfits hlength
  obtain ⟨written, d', hwrite, hholds⟩ := holds_of_writeOutput hlossless hcan stream tally
  obtain ⟨file, hopens, hsteady, hdata⟩ := hholds.exists_source
  rw [← hdata] at hsession
  obtain ⟨r, -, hdecoded⟩ := decodeStream_of_session hsteady hsession output .epoch
  rw [hevents, herror] at hdecoded
  refine ⟨written, tally, d', ⟨r.events, r.window.bytesRead⟩, ?_, ?_⟩
  · rw [runIn_encode_of_holds htext hapart options, hencoded, hwrite]
  · rw [runIn_decode hopens, hdecoded]
    rfl

/-- **Encoded texts are decoded.**  For a text whose rows are shorter than `2 ^ 31` bytes,
    from the standard input or in a file that is not the output, and for any way to compress
    files that loses nothing: encoding it for either width, with any reference timestamp and
    any metadata, succeeds when the metadata fits into the preamble and the output can be
    written.  Then decoding the output succeeds, and prints for each row of the text its
    event.  So what is printed depends on nothing but the text. -/
theorem decode_encode (hlossless : Gzip.Lossless compress) (htext : d.Holds input path text)
    (hapart : d.Apart path output) {rows : List Bytes} (hrows : TextLog.Rows text rows)
    (hshort : ∀ row ∈ rows, row.length < 2 ^ 31) (options : StreamOptions)
    (hencode : (encode path output options).runIn compress input d = (encoded, d')) :
    ((∃ tally, encoded.result = .ok tally) ↔ Fits options text ∧ d.CanWrite output) ∧
    ((∃ tally, encoded.result = .ok tally) →
      ∃ printed tally, (decode output .epoch).runIn compress encoded.written d' =
          (⟨printed, .ok tally⟩, d') ∧
        ∀ out, TextLog.Prints text out ↔ out = printed) := by
  have htold : TextLog.Told 0 rows (TextLog.events (TextLog.lines text)) := by
    rw [TextLog.rows_iff.1 hrows]
    exact TextLog.told_iff.2 rfl
  have hlength := htold.length_le fun row hrow => Nat.le_pred_of_lt (hshort row hrow)
  by_cases h : Fits options text ∧ d.CanWrite output
  · obtain ⟨written, tally, d₁, tally', hencoded, hdecoded⟩ :=
      decode_of_fits hlossless htext hapart h.1 h.2 hlength
    rw [hencode] at hencoded
    cases hencoded
    refine ⟨⟨fun _ => h, fun _ => ⟨tally, rfl⟩⟩, ?_⟩
    intro _
    exact ⟨_, tally', hdecoded, fun out => TextLog.prints_iff⟩
  · obtain ⟨failure, hfailure⟩ := encode_fails htext hapart h
    rw [hencode] at hfailure
    have hnot : ¬∃ tally, encoded.result = .ok tally := by
      intro hok
      obtain ⟨tally, hok⟩ := hok
      rw [hfailure] at hok
      cases hok
    exact ⟨⟨fun hok => absurd hok hnot, fun hall => absurd hall h⟩, fun hok => absurd hok hnot⟩

end

/-- A text of four rows.  The second one has no timestamp, is not UTF-8 and ends with a
    carriage return, and the last one has a sign, a zero and no newline. -/
def sample : Bytes :=
  [0x35, 0x20, 0x61, 0x0A, 0xFF, 0x0D, 0x0A, 0x2D, 0x33, 0x0A, 0x2B, 0x30, 0x37, 0x20, 0x62, 0x20,
    0x63]

theorem parts_compressed : Path.parts "log.gz" = ["log.gz"] := by
  rw [Path.parts, String.splitOn, if_neg (by decide)]
  iterate 7 rw [String.splitOnAux]; simp +decide only [if_false, if_true]

theorem canWrite_compressed : Directory.empty.CanWrite "log.gz" := by
  have hnamed : Directory.named "log.gz" = ["log.gz"] := by
    simp [Directory.named, parts_compressed]
  have hsize : ("log.gz" : String).utf8ByteSize = 6 := by decide
  have hstart : ("log.gz" : String).startsWith "/" = false := by decide +kernel
  have hplace : Directory.empty.placeFor "log.gz" = .ok ["log.gz"] := by
    apply Directory.placeFor_eq_ok_iff.2
    refine ⟨?_, ⟨.inside [], ?_, ?_⟩, ?_⟩
    · simp [hnamed, parts_compressed]
    · simp [hnamed, Directory.follow, Directory.pathMax, hsize, hstart]
      rfl
    · simp [hnamed, Directory.enter, Directory.nodeAt?, Directory.empty, Directory.nameMax, hsize]
    · simp [Directory.Frees, Directory.empty]
  right
  rw [Directory.create, hplace]
  exact ⟨_, rfl⟩

/-- From the standard input into a compressed file. -/
theorem decode_encode_compressed :
    ∃ encoded d' tally tally',
      (encode standardPath "log.gz" ⟨.fourByte, ⟨"HH:mm", "", "UTC"⟩, some 8⟩).runIn Gzip.pack
        sample .empty =
        (encoded, d') ∧
      encoded.result = .ok tally ∧
      (decode "log.gz" .epoch).runIn Gzip.pack encoded.written d' =
        (⟨[0x35, 0x20, 0x61, 0x0A, 0x35, 0x20, 0xFF, 0x0A, 0x2D, 0x33, 0x20, 0x0A, 0x37, 0x20, 0x62,
          0x20, 0x63, 0x0A], .ok tally'⟩, d') := by
  have htext : Directory.empty.Holds sample standardPath sample := by
    rw [Directory.Holds, if_pos rfl]
  have hrows : TextLog.Rows sample [[0x35, 0x20, 0x61], [0xFF, 0x0D], [0x2D, 0x33],
      [0x2B, 0x30, 0x37, 0x20, 0x62, 0x20, 0x63]] := TextLog.rows_iff.2 (by decide +kernel)
  have hfits : Fits ⟨.fourByte, ⟨"HH:mm", "", "UTC"⟩, some 8⟩ sample := by
    unfold Fits
    decide +kernel
  have hprinted : TextLog.Prints sample [0x35, 0x20, 0x61, 0x0A, 0x35, 0x20, 0xFF, 0x0A, 0x2D, 0x33,
      0x20, 0x0A, 0x37, 0x20, 0x62, 0x20, 0x63, 0x0A] := TextLog.prints_iff.2 (by decide +kernel)
  cases hencode : (encode standardPath "log.gz"
      ⟨.fourByte, ⟨"HH:mm", "", "UTC"⟩, some 8⟩).runIn Gzip.pack
        sample .empty with
  | mk encoded d' =>
    obtain ⟨hencoded, hdecoded⟩ :=
      decode_encode Gzip.lossless_pack htext (.inl rfl) hrows (by simp) _ hencode
    obtain ⟨tally, htally⟩ := hencoded.2 ⟨hfits, canWrite_compressed⟩
    obtain ⟨printed, tally', hdecode, hprints⟩ := hdecoded ⟨tally, htally⟩
    rw [← (hprints _).1 hprinted] at hdecode
    exact ⟨encoded, d', tally, tally', rfl, htally, hdecode⟩

end LogCodec.Command
