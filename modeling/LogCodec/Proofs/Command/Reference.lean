import LogCodec.Proofs.Command.Stored

/-! # The default reference timestamp

    Without a reference timestamp a four-byte stream takes that of the first line, as it
    stands in the text.  The events are read from the lines without the carriage returns at
    their ends.  The two readings of the first line differ on rows like `1000\r`, which are
    no timestamp before the carriage return is taken off, and on no others: then the
    reference timestamp is zero, and the first difference is the whole timestamp.

    - `TextLog.ReturnedStamp`: the rows on which the two readings differ.
    - `TextLog.timestamp_eq_iff`: they differ on no others.
    - `Command.begins_at_first_event_iff`: when a stream begins at its first event. -/

namespace LogCodec

/-! ### Two readings of a row -/

namespace TextLog

/-- A row that is a timestamp other than zero and a carriage return. -/
def ReturnedStamp (row : Bytes) : Prop :=
  ∃ body timestamp, row = body ++ [carriageReturn] ∧ Decimal.Denotes body timestamp ∧
    timestamp ≠ 0

/-- The time that a field stands for, zero if it stands for none. -/
def stamp (field : Bytes) : Int64 := (Decimal.readInt64 field).toOption.getD 0

theorem stamp_of_denotes {field : Bytes} {timestamp : Int64}
    (h : Decimal.Denotes field timestamp) : stamp field = timestamp := by
  rw [stamp, Decimal.readInt64_eq_ok_iff.2 h]
  rfl

theorem stamp_of_not_denotes {field : Bytes} (h : ∀ timestamp, ¬Decimal.Denotes field timestamp) :
    stamp field = 0 := by
  unfold stamp
  cases hread : Decimal.readInt64 field with
  | ok timestamp => exact absurd (Decimal.readInt64_eq_ok_iff.1 hread) (h timestamp)
  | error fault => rfl

/-- The time of a line with no line before it is that of its first field. -/
theorem timestamp_eventOf (line : Bytes) :
    (eventOf 0 line).timestamp = stamp (line.takeWhile (· ≠ space)) := by
  unfold eventOf timestamp? stamp
  cases Decimal.readInt64 (line.takeWhile (· ≠ space)) <;> rfl

theorem not_denotes_returned (body : Bytes) (timestamp : Int64) :
    ¬Decimal.Denotes (body ++ [carriageReturn]) timestamp := by
  intro h
  have hmem : carriageReturn ∈ body ++ [carriageReturn] :=
    List.mem_append_right _ (List.mem_singleton.2 rfl)
  exact absurd (h.mem carriageReturn hmem) (by decide)

/-- With its carriage return the first field of a row without a space is no number. -/
theorem timestamp_returned {body : Bytes} (h : space ∉ body) :
    (eventOf 0 (body ++ [carriageReturn])).timestamp = 0 := by
  have hspace : space ∉ body ++ [carriageReturn] := by
    intro hmem
    rcases List.mem_append.1 hmem with hbody | hreturn
    · exact h hbody
    · exact absurd hreturn (by decide)
  rw [timestamp_eventOf, takeWhile_eq_self hspace]
  exact stamp_of_not_denotes (not_denotes_returned body)

/-- Where a space comes first, it ends the first field in both readings. -/
theorem timestamp_returned_of_mem {body : Bytes} (h : space ∈ body) :
    (eventOf 0 (body ++ [carriageReturn])).timestamp = (eventOf 0 body).timestamp := by
  obtain ⟨field, message, rfl, hfield⟩ := List.eq_append_cons_of_mem h
  rw [timestamp_eventOf, timestamp_eventOf, List.append_assoc, List.cons_append,
    takeWhile_of_not_mem hfield, takeWhile_of_not_mem hfield]

theorem returnedStamp_iff {body : Bytes} :
    ReturnedStamp (body ++ [carriageReturn]) ↔
      ∃ timestamp, Decimal.Denotes body timestamp ∧ timestamp ≠ 0 := by
  constructor
  · intro h
    obtain ⟨body', timestamp, hrow, hdenotes⟩ := h
    obtain rfl := (List.append_left_inj [carriageReturn]).1 hrow
    exact ⟨timestamp, hdenotes⟩
  · intro h
    obtain ⟨timestamp, hdenotes⟩ := h
    exact ⟨body, timestamp, rfl, hdenotes⟩

/-- The field of a number other than zero is told from all others by its stamp. -/
theorem stamp_ne_zero_iff {field : Bytes} :
    stamp field ≠ 0 ↔ ∃ timestamp, Decimal.Denotes field timestamp ∧ timestamp ≠ 0 := by
  constructor
  · intro h
    by_cases hdenotes : ∃ timestamp, Decimal.Denotes field timestamp
    · obtain ⟨timestamp, hdenotes⟩ := hdenotes
      rw [stamp_of_denotes hdenotes] at h
      exact ⟨timestamp, hdenotes, h⟩
    · exact absurd (stamp_of_not_denotes (not_exists.1 hdenotes)) h
  · intro h
    obtain ⟨timestamp, hdenotes, hne⟩ := h
    rw [stamp_of_denotes hdenotes]
    exact hne

/-- **The two readings of a row** tell the same time, unless it is such a row. -/
theorem timestamp_eq_iff {row : Bytes} {event : Event} (h : Tells 0 row event) :
    (eventOf 0 row).timestamp = event.timestamp ↔ ¬ReturnedStamp row := by
  have hevent : event.timestamp = (eventOf 0 (trimReturn row)).timestamp := by
    rw [tells_iff.1 h]
  rw [hevent]
  have htrimmed : Trimmed row (trimReturn row) := trimmed_iff.2 rfl
  generalize trimReturn row = body at htrimmed
  cases htrimmed with
  | plain hne =>
    -- nothing is taken off
    refine ⟨fun _ => ?_, fun _ => rfl⟩
    intro hreturned
    obtain ⟨body, -, hrow, -⟩ := hreturned
    exact hne body hrow
  | returned =>
    rw [returnedStamp_iff, ← stamp_ne_zero_iff, not_ne_iff]
    by_cases hspace : space ∈ body
    · have hzero : stamp body = 0 := by
        apply stamp_of_not_denotes
        intro timestamp hdenotes
        exact space_not_mem_of_denotes hdenotes hspace
      exact ⟨fun _ => hzero, fun _ => timestamp_returned_of_mem hspace⟩
    · rw [timestamp_returned hspace, timestamp_eventOf, takeWhile_eq_self hspace]
      exact eq_comm

/-- Such a row is read as zero before its carriage return is taken off. -/
theorem timestamp_of_returnedStamp {row : Bytes} (h : ReturnedStamp row) :
    (eventOf 0 row).timestamp = 0 := by
  obtain ⟨body, timestamp, rfl, hdenotes, -⟩ := h
  exact timestamp_returned (space_not_mem_of_denotes hdenotes)

end TextLog

/-! ### Streams that begin at their first event -/

namespace Command

variable {compress : Bytes → Bytes} {d d' : Directory} {input text : Bytes}
  {path output : String} {encoded : Ending} {info : TimestampInfo} {row : Bytes}
  {rows : List Bytes} {event : Event}

/-- How the stream of a text begins. -/
theorem begins_of_encode (hlossless : Gzip.Lossless compress) (htext : d.Holds input path text)
    (hapart : d.Apart path output) (hrows : TextLog.Rows text (row :: rows))
    (hfirst : TextLog.Tells 0 row event)
    (hencode : (encode path output ⟨.fourByte, info, none⟩).runIn compress input d = (encoded, d'))
    {tally : Tally} (hok : encoded.result = .ok tally) :
    ∃ stream, d'.Holds encoded.written output stream ∧
      Begins stream (TextLog.eventOf 0 row).timestamp
        (event.timestamp - (TextLog.eventOf 0 row).timestamp) := by
  obtain ⟨stream, hholds, hstores⟩ := stores_of_encode hlossless htext hapart hencode hok
  have hlines := TextLog.rows_iff.1 hrows
  have hevents : TextLog.events (TextLog.lines text) =
      event :: TextLog.eventsAfter event.timestamp rows := by
    rw [hlines, TextLog.events, TextLog.eventsAfter, TextLog.tells_iff.1 hfirst]
  rw [hevents] at hstores
  have hbegins := hstores.begins rfl
  simp only [preambleOf, hlines, Option.getD_none, TextLog.firstTimestamp] at hbegins
  exact ⟨stream, hholds, hbegins⟩

/-- **The default reference timestamp.**  Of a text with at least one row, from the standard
    input or in a file that is not the output, and when compressing loses nothing, a four-byte
    stream is stored whenever its
    metadata fits into the preamble, the output can be written and the rows are shorter than
    `2 ^ 31` bytes.  When it is stored without a reference timestamp being given, it begins
    at its first event, with a difference of zero, unless the first row is a timestamp other
    than zero with a carriage return behind it.  Then it begins at zero. -/
theorem begins_at_first_event_iff (hlossless : Gzip.Lossless compress)
    (htext : d.Holds input path text) (hapart : d.Apart path output)
    (hrows : TextLog.Rows text (row :: rows)) (hfirst : TextLog.Tells 0 row event)
    (hencode : (encode path output ⟨.fourByte, info, none⟩).runIn compress input d =
      (encoded, d')) :
    (Fits ⟨.fourByte, info, none⟩ text → d.CanWrite output →
      (∀ x ∈ row :: rows, x.length < 2 ^ 31) → ∃ tally, encoded.result = .ok tally) ∧
    ∀ tally, encoded.result = .ok tally →
      ∃ stream reference difference, d'.Holds encoded.written output stream ∧
        Begins stream reference difference ∧
        (reference = event.timestamp ∧ difference = 0 ↔ ¬TextLog.ReturnedStamp row) ∧
        (TextLog.ReturnedStamp row → reference = 0 ∧ difference = event.timestamp) := by
  constructor
  · intro hfits hcan hshort
    have htold : TextLog.Told 0 (row :: rows) (TextLog.events (TextLog.lines text)) := by
      rw [TextLog.rows_iff.1 hrows]
      exact TextLog.told_iff.2 rfl
    exact encode_succeeds hlossless htext hapart hencode hfits hcan
      (htold.length_le fun x hx => Nat.le_pred_of_lt (hshort x hx))
  · intro tally hok
    obtain ⟨stream, hholds, hbegins⟩ :=
      begins_of_encode hlossless htext hapart hrows hfirst hencode hok
    refine ⟨stream, _, _, hholds, hbegins, ?_, ?_⟩
    · rw [← TextLog.timestamp_eq_iff hfirst]
      refine ⟨And.left, ?_⟩
      intro heq
      exact ⟨heq, by rw [heq, Int64.sub_self]⟩
    · intro hreturned
      rw [TextLog.timestamp_of_returnedStamp hreturned, Int64.sub_zero]
      exact ⟨rfl, rfl⟩

/-- From the standard input to the standard output.  In the first row a space stands before
    the carriage return. -/
theorem begins_at_first_event_spaced :
    ∃ encoded d' tally, (encode standardPath standardPath ⟨.fourByte, ⟨"", "", ""⟩, none⟩).runIn
        Gzip.pack [0x2D, 0x37, 0x20, 0x61, 0x0D, 0x0A, 0x38] .empty = (encoded, d') ∧
      encoded.result = .ok tally ∧ Begins encoded.written (-7) 0 := by
  have hrows : TextLog.Rows [0x2D, 0x37, 0x20, 0x61, 0x0D, 0x0A, 0x38]
      [[0x2D, 0x37, 0x20, 0x61, 0x0D], [0x38]] := TextLog.rows_iff.2 (by decide +kernel)
  have hfirst : TextLog.Tells 0 [0x2D, 0x37, 0x20, 0x61, 0x0D] ⟨[0x61], -7⟩ :=
    TextLog.tells_iff.2 (by decide +kernel)
  have hfits : Fits ⟨.fourByte, ⟨"", "", ""⟩, none⟩ [0x2D, 0x37, 0x20, 0x61, 0x0D, 0x0A, 0x38] := by
    unfold Fits
    decide +kernel
  have hnot : ¬TextLog.ReturnedStamp [0x2D, 0x37, 0x20, 0x61, 0x0D] := by
    show ¬TextLog.ReturnedStamp ([0x2D, 0x37, 0x20, 0x61] ++ [TextLog.carriageReturn])
    rw [TextLog.returnedStamp_iff, ← TextLog.stamp_ne_zero_iff]
    decide +kernel
  cases hencode : (encode standardPath standardPath ⟨.fourByte, ⟨"", "", ""⟩, none⟩).runIn
      Gzip.pack [0x2D, 0x37, 0x20, 0x61, 0x0D, 0x0A, 0x38] .empty with
  | mk encoded d' =>
    obtain ⟨hsucceeds, hbegins⟩ := begins_at_first_event_iff Gzip.lossless_pack
      (Directory.holds_standard_iff.2 rfl) (.inl rfl) hrows hfirst hencode
    obtain ⟨tally, hok⟩ := hsucceeds hfits (.inl rfl) (by simp)
    obtain ⟨stream, reference, difference, hholds, hbegins, hiff, -⟩ := hbegins tally hok
    obtain ⟨hreference, hdifference⟩ := hiff.2 hnot
    subst hreference
    subst hdifference
    obtain rfl := Directory.holds_standard_iff.1 hholds
    exact ⟨encoded, d', tally, rfl, hok, hbegins⟩

/-- The first row is the timestamp 1000 and a carriage return.  The first event has this
    time, but the reference timestamp is zero and the first difference is not. -/
theorem begins_before_first_event :
    ∃ encoded d' tally, (encode standardPath standardPath ⟨.fourByte, ⟨"", "", ""⟩, none⟩).runIn
        Gzip.pack [0x31, 0x30, 0x30, 0x30, 0x0D, 0x0A] .empty = (encoded, d') ∧
      encoded.result = .ok tally ∧
      TextLog.Rows [0x31, 0x30, 0x30, 0x30, 0x0D, 0x0A] [[0x31, 0x30, 0x30, 0x30, 0x0D]] ∧
      TextLog.Tells 0 [0x31, 0x30, 0x30, 0x30, 0x0D] ⟨[], 1000⟩ ∧
      Begins encoded.written 0 1000 ∧ ¬Begins encoded.written 1000 0 := by
  have hrows : TextLog.Rows [0x31, 0x30, 0x30, 0x30, 0x0D, 0x0A]
      [[0x31, 0x30, 0x30, 0x30, 0x0D]] := TextLog.rows_iff.2 (by decide +kernel)
  have hfirst : TextLog.Tells 0 [0x31, 0x30, 0x30, 0x30, 0x0D] ⟨[], 1000⟩ :=
    TextLog.tells_iff.2 (by decide +kernel)
  have hfits : Fits ⟨.fourByte, ⟨"", "", ""⟩, none⟩ [0x31, 0x30, 0x30, 0x30, 0x0D, 0x0A] := by
    unfold Fits
    decide +kernel
  have hreference : (TextLog.eventOf 0 [0x31, 0x30, 0x30, 0x30, 0x0D]).timestamp = 0 := by
    decide +kernel
  cases hencode : (encode standardPath standardPath ⟨.fourByte, ⟨"", "", ""⟩, none⟩).runIn
      Gzip.pack [0x31, 0x30, 0x30, 0x30, 0x0D, 0x0A] .empty with
  | mk encoded d' =>
    have htext : Directory.empty.Holds [0x31, 0x30, 0x30, 0x30, 0x0D, 0x0A] standardPath
        [0x31, 0x30, 0x30, 0x30, 0x0D, 0x0A] := Directory.holds_standard_iff.2 rfl
    obtain ⟨tally, hok⟩ := encode_succeeds Gzip.lossless_pack htext (.inl rfl) hencode hfits
      (.inl rfl)
      (by decide +kernel)
    obtain ⟨stream, hholds, hbegins⟩ :=
      begins_of_encode Gzip.lossless_pack htext (.inl rfl) hrows hfirst hencode hok
    rw [hreference] at hbegins
    obtain rfl := Directory.holds_standard_iff.1 hholds
    refine ⟨encoded, d', tally, rfl, hok, hrows, hfirst, hbegins, ?_⟩
    intro hclaimed
    exact absurd (hbegins.unique hclaimed).1 (by decide)

end Command

end LogCodec
