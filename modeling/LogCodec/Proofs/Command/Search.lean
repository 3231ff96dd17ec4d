import LogCodec.Proofs.Command.RoundTrip

/-! # Searching is decoding, filtered

    Decoding puts together every message, and searching only those in the interval, past
    the records in between.  On a stream all of whose complete records can be decoded both
    come to the same: the same events, less those that are not looked for, and the same
    end at the same place.  This holds wherever the stream is cut short or corrupted.

    - `Command.Wanted`: which events are looked for.
    - `Command.EndAlike`: both commands end in the same way.
    - `Command.searchStream_of_session`: searching prints the wanted events.
    - `Command.search_decode`: both commands, on any input. -/

namespace LogCodec.Command

/-! ### What is looked for -/

/-- The event is looked for: it is within the bounds, if there are any, and one of the
    queries admits its message. -/
def Wanted (queries : List Query) (lower upper : Option Int64) (event : Event) : Prop :=
  (∀ bound ∈ lower, bound ≤ event.timestamp) ∧ (∀ bound ∈ upper, event.timestamp ≤ bound) ∧
    ∃ query ∈ queries, query.Admits event.message

theorem contains_ofBounds_iff {lower upper : Option Int64} {timestamp : Int64} :
    (Interval.ofBounds lower upper).contains timestamp = true ↔
      (∀ bound ∈ lower, bound ≤ timestamp) ∧ (∀ bound ∈ upper, timestamp ≤ bound) := by
  rw [Interval.contains, Bool.and_eq_true, decide_eq_true_iff, decide_eq_true_iff]
  apply and_congr
  · cases lower with
    | none => simp [Interval.ofBounds, Interval.all, Int64.minValue_le]
    | some bound => simp [Interval.ofBounds]
  · cases upper with
    | none => simp [Interval.ofBounds, Interval.all, Int64.le_maxValue]
    | some bound => simp [Interval.ofBounds]

theorem sought_iff_wanted {queries : List Query} {lower upper : Option Int64} {event : Event} :
    Deserializer.Stands.sought (Interval.ofBounds lower upper) (Matcher.ofQueries queries) event =
      true ↔ Wanted queries lower upper event := by
  rw [Deserializer.Stands.sought, Matcher.isSome_find?_ofQueries, Bool.and_eq_true,
    contains_ofBounds_iff, List.any_eq_true, and_assoc]
  simp only [Wanted, Query.matchesMessage_iff_admits]

instance (queries : List Query) (lower upper : Option Int64) :
    DecidablePred (Wanted queries lower upper) := fun _ =>
  decidable_of_iff _ sought_iff_wanted

/-- A search is for the wanted events. -/
theorem sought_eq_wanted (queries : List Query) (lower upper : Option Int64) :
    Deserializer.Stands.sought (Interval.ofBounds lower upper) (Matcher.ofQueries queries) =
      fun event => decide (Wanted queries lower upper event) := by
  funext event
  rw [Bool.eq_iff_iff, decide_eq_true_iff]
  exact sought_iff_wanted

/-! ### How a command ends -/

/-- Decoding and searching end in the same way: well, or with the same failure at the
    same place. -/
inductive EndAlike (path : String) (transcript : Transcript) :
    (decoded searched : Except Failure Tally) → Prop where
  | finished (tally tally' : Tally) : transcript.error = .endOfStream →
    EndAlike path transcript (.ok tally) (.ok tally')
  | stopped : transcript.error ≠ .endOfStream →
    EndAlike path transcript (.error (.readEvent path transcript.offset transcript.error))
      (.error (.search path transcript.offset transcript.error))

/-- The end of the stream is the only good end. -/
theorem conclude_eq_error {failure : Nat → Error → Failure} {error : Error}
    (h : error ≠ .endOfStream) (r : Reader) :
    conclude failure error r = .error (failure r.window.streamOffset error) := by
  unfold conclude
  split
  case h_1 => exact absurd rfl h
  case h_2 => rfl

/-- Readers that got to the same place for the same reason. -/
theorem endAlike_conclude {transcript : Transcript} {r r' : Reader}
    (h : r.window.streamOffset = transcript.offset)
    (h' : r'.window.streamOffset = transcript.offset) (path : String) :
    EndAlike path transcript (conclude (.readEvent path) transcript.error r)
      (conclude (.search path) transcript.error r') := by
  by_cases hend : transcript.error = .endOfStream
  · rw [hend]
    exact .finished _ _ hend
  · rw [conclude_eq_error hend, conclude_eq_error hend, h, h']
    exact .stopped hend

/-! ### Searching -/

section

variable {stream : Source} (hsteady : stream.SteadyToEnd)

include hsteady

/-- The reader of a stream of records that can be decoded is in front of its events. -/
theorem exists_at_open {deserializer : Deserializer} {size : Nat}
    (h : Deserializer.ofBytes stream.data = .ok (deserializer, size))
    (hdecodable : Record.Decodable deserializer.width (stream.data.drop size)) :
    ∃ r events ending, Reader.open stream Window.defaultCapacity = .ok r ∧
      deserializer.Stands (stream.data.drop size) events ending ∧
      Reader.At ending ⟨events, size, 0⟩ r := by
  have hopen := Reader.open_answers_of_toEnd hsteady Window.defaultCapacity
  rw [h] at hopen
  obtain ⟨r, hr, hopened⟩ := hopen
  obtain ⟨events, ending, hstands⟩ :=
    (Deserializer.live_of_ofBytes h).exists_stands hdecodable
  refine ⟨r, events, ending, hr, hstands, hopened.steady, ?_, ?_, hopened.events⟩
  · rw [hopened.deserializer, hopened.pending]
    exact hstands
  · rw [hopened.offset, Nat.zero_add]

/-- Searching prints the wanted events. -/
theorem searchStream_of_session {session : Session}
    (h : Deserializer.session stream.data = .ok session)
    (hdecodable : ∀ deserializer size, Deserializer.ofBytes stream.data = .ok (deserializer, size) →
      Record.Decodable deserializer.width (stream.data.drop size))
    (path : String) (queries : List Query) (lower upper : Option Int64)
    (style : TextLog.TimestampStyle) :
    ∃ r : Reader, r.window.streamOffset = session.transcript.offset ∧
      searchStream path queries (Interval.ofBounds lower upper) style stream =
        ⟨TextLog.ofEvents style (session.events.filter (Wanted queries lower upper)),
          conclude (.search path) session.transcript.error r⟩ := by
  obtain ⟨⟨deserializer, size⟩, hsaid, rfl⟩ := Result.map_eq_ok_iff.1 h
  obtain ⟨r, events, ending, hopen, hstands, hat⟩ :=
    exists_at_open hsteady hsaid (hdecodable _ _ hsaid)
  obtain ⟨hevents, hending⟩ := hstands.transcript size
  obtain ⟨hitems, herror, hoffset⟩ :=
    hat.collectFrom_nextMatch (Interval.ofBounds lower upper) (Matcher.ofQueries queries) []
  rw [sought_eq_wanted, ← hevents] at hitems
  rw [← hstands.offset_transcript size] at hoffset
  rw [← hending] at herror
  refine ⟨_, hoffset, ?_⟩
  simp only [searchStream, writeMatches, hopen, Reader.allMatches, hitems, herror]
  rfl

end

/-! ### Both commands -/

section

variable {d : Directory} {input data : Bytes} {path : String}

/-- Neither command starts when the preamble is refused.  The error may report fewer bytes
    in place of the magic number. -/
theorem runIn_of_refused (h : d.Holds input path data) {error : Error}
    (herror : Deserializer.session data = .error error) (compress : Bytes → Bytes)
    (queries : List Query) (interval : Interval) (style : TextLog.TimestampStyle) :
    ∃ error', error'.withoutMagic = error.withoutMagic ∧
      (decode path style).runIn compress input d = (⟨[], .error (.readPreamble path error')⟩, d) ∧
      (search path queries interval style).runIn compress input d =
        (⟨[], .error (.readPreamble path error')⟩, d) := by
  obtain ⟨file, hopens, hsteady, hdata⟩ := h.exists_source
  have hopen := Reader.open_answers_of_toEnd hsteady Window.defaultCapacity
  rw [hdata] at hopen
  unfold Deserializer.session at herror
  cases hsaid : Deserializer.ofBytes data with
  | ok said =>
    rw [hsaid] at herror
    cases herror
  | error refused =>
    rw [hsaid] at herror hopen
    cases herror
    obtain ⟨error', hopen, hsame⟩ := hopen
    refine ⟨error', hsame, ?_, ?_⟩
    · rw [runIn_decode hopens, decodeStream, hopen]
    · rw [runIn_search hopens, searchStream, writeMatches, hopen]

/-- **Searching is decoding, filtered.**  Whatever bytes the input holds: when the preamble
    is refused, both commands fail with the same error and print nothing.  Otherwise, if
    all complete records in front of the first fault of the frame can be decoded, decoding
    prints the events, searching prints those of them that are wanted, and both end in the
    same way. -/
theorem search_decode (h : d.Holds input path data)
    (hdecodable : ∀ deserializer size, Deserializer.ofBytes data = .ok (deserializer, size) →
      Record.Decodable deserializer.width (data.drop size))
    (compress : Bytes → Bytes) (queries : List Query) (lower upper : Option Int64) :
    match Deserializer.session data with
    | .error error =>
      ∃ error', error'.withoutMagic = error.withoutMagic ∧
        (decode path .epoch).runIn compress input d =
            (⟨[], .error (.readPreamble path error')⟩, d) ∧
        (search path queries (Interval.ofBounds lower upper) .epoch).runIn compress input d =
          (⟨[], .error (.readPreamble path error')⟩, d)
    | .ok session =>
      ∃ decoded searched,
        (decode path .epoch).runIn compress input d =
            (⟨TextLog.ofEvents .epoch session.events, decoded⟩, d) ∧
          (search path queries (Interval.ofBounds lower upper) .epoch).runIn compress input d =
            (⟨TextLog.ofEvents .epoch (session.events.filter (Wanted queries lower upper)),
              searched⟩, d) ∧
          EndAlike path session.transcript decoded searched := by
  cases hsession : Deserializer.session data with
  | error error => exact runIn_of_refused h hsession compress queries _ .epoch
  | ok session =>
    obtain ⟨file, hopens, hsteady, rfl⟩ := h.exists_source
    obtain ⟨r, hoffset, hdecoded⟩ := decodeStream_of_session hsteady hsession path .epoch
    obtain ⟨r', hoffset', hsearched⟩ :=
      searchStream_of_session hsteady hsession hdecodable path queries lower upper .epoch
    refine ⟨_, _, ?_, ?_, endAlike_conclude hoffset hoffset' path⟩
    · rw [runIn_decode hopens, hdecoded]
    · rw [runIn_search hopens, hsearched]

end

/-- A stream of three events, behind which there is a byte that is no tag. -/
def corrupted : Bytes :=
  [0xFD, 0x2F, 0xB5, 0x29, 8, 1, 0, 2, 0x7B, 0x7D] ++
    ([1, 0, 0, 0, 1, 0x41, 0, 0, 0, 0, 0, 0, 0, 0, 0, 0, 0, 0, 0, 0, 0, 0, 0, 0, 0, 7] ++
      ([1, 0, 0, 0, 1, 0x42, 0, 0, 0, 0, 0, 0, 0, 0, 0, 0, 0, 0, 0, 0, 0, 0, 0, 0, 0, 9] ++
        ([1, 0, 0, 0, 1, 0x41, 0, 0, 0, 0, 0, 0, 0, 0, 0, 0, 0, 0, 0, 0, 0, 0, 0, 0, 0, 9] ++ [5])))

theorem decodable_corrupted {deserializer : Deserializer} {size : Nat}
    (h : Deserializer.ofBytes corrupted = .ok (deserializer, size)) :
    Record.Decodable deserializer.width (corrupted.drop size) := by
  have hopened : Deserializer.ofBytes corrupted =
      .ok (Deserializer.ofPreamble ⟨.eightByte, ⟨"", "", ""⟩, 0⟩, 10) := by
    decide +kernel
  rw [hopened] at h
  cases h
  -- three records, and nothing that starts as a fourth
  apply Record.Decodable.cons (r := ⟨⟨[0x41], [], [], []⟩, 7⟩) rfl rfl
  apply Record.Decodable.cons (r := ⟨⟨[0x42], [], [], []⟩, 9⟩) rfl rfl
  apply Record.Decodable.cons (r := ⟨⟨[0x41], [], [], []⟩, 9⟩) rfl rfl
  apply Record.decodable_of_front
  intro r size hfront
  cases hfront

theorem session_corrupted : Deserializer.session corrupted =
    .ok ⟨.eightByte, ⟨"", "", ""⟩, none, 10,
      ⟨[⟨⟨[0x41], 7⟩, none, 36⟩, ⟨⟨[0x42], 9⟩, none, 62⟩, ⟨⟨[0x41], 9⟩, none, 88⟩],
        .corrupted (.unknownTag 5), 88⟩⟩ := by
  decide +kernel

/-- Both commands fail there, and of the two events from time 8 on one matches. -/
theorem search_decode_corrupted :
    (decode standardPath .epoch).runIn Gzip.pack corrupted .empty =
        (⟨[0x37, 0x20, 0x41, 0x0A, 0x39, 0x20, 0x42, 0x0A, 0x39, 0x20, 0x41, 0x0A],
          .error (.readEvent standardPath 88 (.corrupted (.unknownTag 5)))⟩, .empty) ∧
      (search standardPath [⟨"a", false⟩] (Interval.ofBounds (some 8) none) .epoch).runIn
          Gzip.pack corrupted .empty =
        (⟨[0x39, 0x20, 0x41, 0x0A],
          .error (.search standardPath 88 (.corrupted (.unknownTag 5)))⟩, .empty) := by
  have hholds : Directory.empty.Holds corrupted standardPath corrupted := by
    rw [Directory.Holds, if_pos rfl]
  have hboth := search_decode hholds (fun _ _ => decodable_corrupted) Gzip.pack [⟨"a", false⟩]
    (some 8) none
  rw [session_corrupted] at hboth
  obtain ⟨decoded, searched, hdecode, hsearch, hend⟩ := hboth
  have hdecoded : TextLog.ofEvents .epoch [⟨[0x41], 7⟩, ⟨[0x42], 9⟩, ⟨[0x41], 9⟩] =
      [0x37, 0x20, 0x41, 0x0A, 0x39, 0x20, 0x42, 0x0A, 0x39, 0x20, 0x41, 0x0A] := by decide +kernel
  have hsearched : TextLog.ofEvents .epoch
      (List.filter (Wanted [⟨"a", false⟩] (some 8) none) [⟨[0x41], 7⟩, ⟨[0x42], 9⟩, ⟨[0x41], 9⟩]) =
      [0x39, 0x20, 0x41, 0x0A] := by decide +kernel
  cases hend with
  | finished tally tally' hended => cases hended
  | stopped =>
    rw [← hdecoded, ← hsearched]
    exact ⟨hdecode, hsearch⟩

end LogCodec.Command
