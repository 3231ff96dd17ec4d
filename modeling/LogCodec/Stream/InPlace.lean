import LogCodec.Message.InPlace
import LogCodec.Stream.Deserializer
import LogCodec.Stream.Serializer

/-! # Streams through buffers that are used again

    A serializer and a deserializer keep the buffers in which they put messages and
    records together.  A call that fails leaves in them what was written until then.

    - `Serializer.InPlace`: a serializer with its buffers.
    - `Deserializer.InPlace`: a deserializer with its buffers.  The text of a deserializer
      is one of them. -/

namespace LogCodec

/-! ### Records -/

namespace Record

variable {w : Width}

/-- Writes a length and what it counts behind other bytes.  A length that is too great is
    found before anything is written. -/
def putCounted (out : Bytes) (length : Nat) (content : Bytes) : Result Unit × Bytes :=
  match lengthField length with
  | .ok field => (.ok (), out ++ field ++ content)
  | .error error => (.error error, out)

/-- Writes several of these until one fails. -/
def putAllCounted (out : Bytes) : List (Nat × Bytes) → Result Unit × Bytes
  | [] => (.ok (), out)
  | (length, content) :: rest =>
    match putCounted out length content with
    | (.ok _, out) => putAllCounted out rest
    | (.error error, out) => (.error error, out)

/-- Writes the record behind other bytes. -/
def putOnto (r : Record w) (out : Bytes) : Result Unit × Bytes :=
  let e := r.encoded
  match putAllCounted (out ++ [eventTag]) [
      (e.logType.length, e.logType),
      (e.inline.length, e.inline.flatMap Variable.toBytes),
      (e.dictionary.length, e.dictionary),
      (e.ends.length, e.ends.flatMap Variable.toBytes)] with
  | (.ok _, out) => (.ok (), out ++ Word.ofInt64 r.time)
  | (.error error, out) => (.error error, out)

end Record

/-- Reads the body of a record into the buffers, field by field.  Gives the time of the
    record and the cursor behind it, or nothing where the bytes end. -/
def EncodedBuffer.read? {w : Width} (b : EncodedBuffer w) (c : Cursor) :
    Option (Int64 × Cursor) × EncodedBuffer w :=
  let b := b.clear
  match c.counted? with
  | none => (none, b)
  | some (logType, c) =>
    let b := { b with logType := b.logType ++ logType }
    match c.variables? w b.inline.toList with
    | none => (none, b)
    | some (inline, c) =>
      let b := { b with inline := inline.toArray }
      match c.counted? with
      | none => (none, b)
      | some (dictionary, c) =>
        let b := { b with dictionary := b.dictionary ++ dictionary }
        match c.variables? .fourByte b.ends.toList with
        | none => (none, b)
        | some (ends, c) => (c.int64?, { b with ends := ends.toArray })

/-- Reading comes to the same in any buffers.  They hold the record then, and nothing
    else. -/
theorem EncodedBuffer.read?_spec {w : Width} (b : EncodedBuffer w) (c : Cursor) :
    (Record.body? w c = none ∧ (b.read? c).1 = none) ∨
      ∃ r c', Record.body? w c = some (r, c') ∧
        b.read? c = (some (r.time, c'), .ofEncoded r.encoded) := by
  unfold read? Record.body?
  cases h₁ : c.counted? with
  | none => exact .inl ⟨rfl, rfl⟩
  | some p₁ =>
    obtain ⟨logType, c₁⟩ := p₁
    dsimp only [clear, Option.bind_eq_bind, Option.bind_some]
    cases h₂ : c₁.variables? w [] with
    | none => exact .inl ⟨rfl, rfl⟩
    | some p₂ =>
      obtain ⟨inline, c₂⟩ := p₂
      dsimp only [Option.bind_some]
      cases h₃ : c₂.counted? with
      | none => exact .inl ⟨rfl, rfl⟩
      | some p₃ =>
        obtain ⟨dictionary, c₃⟩ := p₃
        dsimp only [Option.bind_some]
        cases h₄ : c₃.variables? .fourByte [] with
        | none => exact .inl ⟨rfl, rfl⟩
        | some p₄ =>
          obtain ⟨ends, c₄⟩ := p₄
          dsimp only [Option.bind_some]
          cases h₅ : c₄.int64? with
          | none => exact .inl ⟨rfl, rfl⟩
          | some p₅ =>
            obtain ⟨time, c₅⟩ := p₅
            refine .inr ⟨_, _, rfl, ?_⟩
            simp [ofEncoded]

/-! ### Serializers -/

/-- A serializer, and the buffers that it keeps. -/
structure Serializer.InPlace extends Serializer where
  encoded : EncodedBuffer width
  record : Bytes

namespace Serializer.InPlace

/-- A new serializer has empty buffers. -/
def ofSerializer (s : Serializer) : InPlace := { s with encoded := .empty, record := [] }

/-- Makes the record of an event.  It stands in the buffer then, which is empty if this
    failed. -/
def serialize (x : InPlace) (event : Event) : Result Bytes × InPlace :=
  if x.closed then (.error .closed, x)
  else
    let x := { x with record := [] }
    match x.encoded.encode event.message with
    | (.error error, encoded) => (.error error, { x with encoded := encoded, record := [] })
    | (.ok _, encoded) =>
      let x := { x with encoded := encoded }
      match Record.putOnto ⟨x.encoded.contents, x.storedTime event.timestamp⟩ x.record with
      | (.error error, _) => (.error error, { x with record := [] })
      | (.ok _, record) =>
        (.ok record, { x with
          record := record
          running := if x.width = .fourByte then event.timestamp else x.running })

/-- Sets the running timestamp of a four-byte stream. -/
def setRunning (x : InPlace) (timestamp : Int64) : InPlace :=
  { x with running := if x.width = .fourByte then timestamp else x.running }

/-- Releases the buffers. -/
def close (x : InPlace) : InPlace :=
  { x with closed := true, encoded := .empty, record := [] }

end Serializer.InPlace

/-! ### Deserializers -/

/-- A deserializer, and the buffer that it reads records into. -/
structure Deserializer.InPlace extends Deserializer where
  encoded : EncodedBuffer width

namespace Deserializer.InPlace

/-- A new deserializer has empty buffers. -/
def ofDeserializer (d : Deserializer) : InPlace := { d with encoded := .empty }

/-- Reads the record in front of some bytes into the buffer.  Gives its size and its time. -/
def readRecord (x : InPlace) (bytes : Bytes) : Result (Nat × Int64) × InPlace :=
  if x.closed then (.error .closed, x)
  else if x.ended then (.error .endOfStream, x)
  else
    match bytes with
    | [] => (.error .incomplete, x)
    | tag :: rest =>
      if tag = Record.eventTag then
        match x.encoded.read? ⟨rest, 1⟩ with
        | (none, encoded) => (.error .incomplete, { x with encoded := encoded })
        | (some (time, c), encoded) =>
          (.ok (c.pos, x.eventTime time), { x with encoded := encoded })
      else if tag = Record.endTag then (.error .endOfStream, { x with ended := true })
      else (.error (.corrupted (.unknownTag tag)), x)

/-- Writes the message of the record that was read last. -/
def writeText (x : InPlace) : Result Unit × InPlace :=
  let x := { x with text := [] }
  match x.encoded.contents.renderOnto x.text with
  | ⟨text, none⟩ => (.ok (), { x with text := text })
  | ⟨text, some fault⟩ => (.error (.decode fault), { x with text := text })

/-- An event at this time was read or skipped. -/
def commitTime (x : InPlace) (timestamp : Int64) : InPlace :=
  { x with running := timestamp, timestamp := timestamp }

/-- The event in front of some bytes, with the size of its record.  The event is what
    stands in the buffers then. -/
def readNext (x : InPlace) (bytes : Bytes) : Result (Event × Nat) × InPlace :=
  match x.readRecord bytes with
  | (.error error, x) => (.error error, x)
  | (.ok (size, timestamp), x) =>
    match x.writeText with
    | (.error error, x) => (.error error, x)
    | (.ok _, x) =>
      let x := x.commitTime timestamp
      (.ok (x.lastEvent, size), x)

/-- Reading a record is a step of the deserializer.  The buffer holds the message of an
    event then. -/
theorem readRecord_spec (x : InPlace) (bytes : Bytes) :
    (∃ error x', x.readRecord bytes = (.error error, x') ∧
        x.step bytes = .stop error x'.toDeserializer) ∨
      ∃ e timestamp size, x.step bytes = .event e timestamp size ∧
        x.readRecord bytes = (.ok (size, timestamp), { x with encoded := .ofEncoded e }) := by
  unfold readRecord step
  by_cases hclosed : x.closed = true
  · exact .inl ⟨_, x, if_pos hclosed, if_pos hclosed⟩
  by_cases hended : x.ended = true
  · refine .inl ⟨.endOfStream, x, ?_, ?_⟩ <;> rw [if_neg hclosed, if_pos hended]
  simp only [if_neg hclosed, if_neg hended]
  cases bytes with
  | nil => exact .inl ⟨_, x, rfl, rfl⟩
  | cons tag rest =>
    dsimp only [Record.front]
    by_cases hevent : tag = Record.eventTag
    · simp only [if_pos hevent]
      rcases x.encoded.read?_spec ⟨rest, 1⟩ with ⟨hbody, hread⟩ | ⟨r, c, hbody, hread⟩
      · cases hx : x.encoded.read? ⟨rest, 1⟩ with
        | mk body encoded =>
          rw [hx] at hread
          obtain rfl : body = none := hread
          simp only [hbody]
          exact .inl ⟨_, _, rfl, rfl⟩
      · simp only [hbody, hread]
        exact .inr ⟨_, _, _, rfl, rfl⟩
    · simp only [if_neg hevent]
      by_cases hend : tag = Record.endTag
      · simp only [if_pos hend]
        exact .inl ⟨_, _, rfl, rfl⟩
      · simp only [if_neg hend]
        exact .inl ⟨_, x, rfl, rfl⟩

theorem size_of_readRecord {x x' : InPlace} {bytes : Bytes} {size : Nat} {timestamp : Int64}
    (h : x.readRecord bytes = (.ok (size, timestamp), x')) : 0 < size ∧ size ≤ bytes.length := by
  rcases x.readRecord_spec bytes with ⟨error, x'', hread, -⟩ | ⟨e, time, size', hstep, hread⟩
  · rw [hread] at h
    cases h
  · rw [hread] at h
    cases h
    exact size_of_step_event hstep

/-- Searches from a place where `consumed` bytes were used already. -/
def searchFrom (x : InPlace) (interval : Interval) (matcher : Matcher) (consumed : Nat)
    (bytes : Bytes) : Result Nat × Nat × InPlace :=
  match _h : x.readRecord bytes with
  | (.error .incomplete, x) =>
    (.error (if 0 < consumed then .noMatch else .incomplete), consumed, x)
  | (.error error, x) => (.error error, consumed, x)
  | (.ok (size, timestamp), x) =>
    if interval.contains timestamp then
      match x.writeText with
      | (.error error, x) => (.error error, consumed, x)
      | (.ok _, x) =>
        let x := x.commitTime timestamp
        match matcher.find? x.text with
        | some query => (.ok query, consumed + size, x)
        | none => searchFrom x interval matcher (consumed + size) (bytes.drop size)
    else searchFrom (x.commitTime timestamp) interval matcher (consumed + size) (bytes.drop size)
termination_by bytes.length
decreasing_by
  all_goals
    have := size_of_readRecord _h
    simp only [List.length_drop]
    omega

/-- The first event in an interval whose message matches a query, and how many bytes were
    used.  The event is what stands in the buffers then. -/
def search (x : InPlace) (interval : Interval) (matcher : Matcher) (bytes : Bytes) :
    Result Match × Nat × InPlace :=
  let (result, consumed, x) := x.searchFrom interval matcher 0 bytes
  (result.map fun query => ⟨x.lastEvent, query⟩, consumed, x)

/-- Releases the buffers. -/
def release (x : InPlace) : InPlace := { x with closed := true, encoded := .empty, text := [] }

end Deserializer.InPlace

end LogCodec
