import LogCodec.Message.Rendering
import LogCodec.Query.Interval
import LogCodec.Query.Matcher
import LogCodec.Stream.Preamble
import LogCodec.Stream.Record

/-! # Deserializers

    A deserializer reads records from bytes that its caller hands in, and says
    how many of them it used.  For a four-byte stream it keeps the running
    timestamp, which moves with every record that is read or skipped.

    - `Deserializer.next` reads one event.
    - `Deserializer.search` skips events until one is in an interval and passes
      a test of its message, and `Deserializer.find` until one matches a query.

    `Error.incomplete` means that the bytes end inside a record: the caller may
    try again with more bytes from the same place.  Once the end of the stream
    was met, it stays the answer. -/

namespace LogCodec

/-- The reading side of a stream. -/
structure Deserializer where
  width : Width
  info : TimestampInfo
  /-- The time of the last event that was read or skipped, or the reference
      timestamp. -/
  running : Int64
  /-- The message written last, only the front of it when writing failed. -/
  text : Bytes
  /-- The time of the last event that was read or skipped, or zero. -/
  timestamp : Int64
  /-- Was the end of the stream met? -/
  ended : Bool
  closed : Bool
deriving DecidableEq

/-- An event that was looked for, with the first query that matches it. -/
structure Match where
  event : Event
  query : Nat
deriving DecidableEq

namespace Deserializer

/-- The deserializer of a stream with this preamble. -/
def ofPreamble (p : Preamble) : Deserializer where
  width := p.width
  info := p.info
  running := p.reference
  text := []
  timestamp := 0
  ended := false
  closed := false

/-- The deserializer of the stream at the front of some bytes, and how many
    bytes its preamble has. -/
def ofBytes (bytes : Bytes) : Result (Deserializer × Nat) :=
  (Preamble.ofBytes bytes).map fun (p, size) => (ofPreamble p, size)

theorem size_of_ofBytes {bytes : Bytes} {d : Deserializer} {size : Nat}
    (h : ofBytes bytes = .ok (d, size)) : size ≤ bytes.length := by
  obtain ⟨⟨p, size'⟩, hp, h⟩ := Result.map_eq_ok_iff.1 h
  cases h
  exact Preamble.size_of_ofBytes hp

/-- The running timestamp of a four-byte stream. -/
def runningTimestamp? (d : Deserializer) : Option Int64 :=
  match d.width with
  | .fourByte => some d.running
  | .eightByte => none

/-- The event that was written last. -/
def lastEvent (d : Deserializer) : Event := ⟨d.text, d.timestamp⟩

/-- A closed deserializer reads no more. -/
def close (d : Deserializer) : Deserializer := { d with closed := true, text := [] }

/-! ### One record -/

/-- The time of an event with this stored time. -/
def eventTime (d : Deserializer) (stored : Int64) : Int64 :=
  match d.width with
  | .fourByte => d.running + stored
  | .eightByte => stored

/-- An event at this time was read or skipped. -/
def commit (d : Deserializer) (timestamp : Int64) : Deserializer :=
  { d with running := timestamp, timestamp := timestamp }

/-- What the front of some bytes is to a deserializer. -/
inductive Step (w : Width) where
  /-- An event record of `size` bytes, of an event at this time. -/
  | event (encoded : Encoded w) (timestamp : Int64) (size : Nat)
  /-- Something else, and the deserializer after it. -/
  | stop (error : Error) (after : Deserializer)

/-- Looks at the front of some bytes. -/
def step (d : Deserializer) (bytes : Bytes) : Step d.width :=
  if d.closed then .stop .closed d
  else if d.ended then .stop .endOfStream d
  else
    match Record.front d.width bytes with
    | .event record size => .event record.encoded (d.eventTime record.time) size
    | .finish => .stop .endOfStream { d with ended := true }
    | .unknown tag => .stop (.corrupted (.unknownTag tag)) d
    | .incomplete => .stop .incomplete d

theorem size_of_step_event {d : Deserializer} {bytes : Bytes} {encoded : Encoded d.width}
    {timestamp : Int64} {size : Nat} (h : d.step bytes = .event encoded timestamp size) :
    0 < size ∧ size ≤ bytes.length := by
  unfold step at h
  split at h
  · cases h
  · split at h
    · cases h
    · split at h
      · rename_i hf
        cases h
        exact Record.size_of_front_event hf
      all_goals cases h

/-- Keeps what was written. -/
def withText (d : Deserializer) (text : Bytes) : Deserializer := { d with text := text }

/-- The event record at the front of some bytes, with its size.  Errors use
    nothing. -/
def next (d : Deserializer) (bytes : Bytes) : Result (Event × Nat) × Deserializer :=
  match d.step bytes with
  | .stop error after => (.error error, after)
  | .event encoded timestamp size =>
    match encoded.render with
    -- the running timestamp stays behind when the message cannot be written
    | ⟨text, some fault⟩ => (.error (.decode fault), d.withText text)
    | ⟨text, none⟩ => (.ok (⟨text, timestamp⟩, size), (d.withText text).commit timestamp)

theorem size_of_next {d d' : Deserializer} {bytes : Bytes} {event : Event} {size : Nat}
    (h : d.next bytes = (.ok (event, size), d')) : 0 < size ∧ size ≤ bytes.length := by
  unfold next at h
  split at h
  · simp at h
  · rename_i hs
    split at h
    · simp at h
    · simp only [Prod.mk.injEq, Except.ok.injEq] at h
      obtain ⟨⟨-, rfl⟩, -⟩ := h
      exact size_of_step_event hs

/-! ### Searching -/

/-- The end of a search. -/
structure Search where
  result : Result Match
  /-- Bytes of the records that were read or skipped. -/
  consumed : Nat
  after : Deserializer

/-- Searches from a place where `consumed` bytes were used already.  Messages are put
    together only for events in the interval.  The test tells which query a message
    matches, if it matches any. -/
def findFrom (d : Deserializer) (interval : Interval) (test : Bytes → Option Nat) (consumed : Nat)
    (bytes : Bytes) : Search :=
  match _h : d.step bytes with
  | .stop .incomplete after =>
    -- the records before this place were used up, which is no failure
    ⟨.error (if 0 < consumed then .noMatch else .incomplete), consumed, after⟩
  | .stop error after => ⟨.error error, consumed, after⟩
  | .event encoded timestamp size =>
    if interval.contains timestamp then
      match encoded.render with
      | ⟨text, some fault⟩ => ⟨.error (.decode fault), consumed, d.withText text⟩
      | ⟨text, none⟩ =>
        match test text with
        | some query =>
          ⟨.ok ⟨⟨text, timestamp⟩, query⟩, consumed + size, (d.withText text).commit timestamp⟩
        | none =>
          findFrom ((d.withText text).commit timestamp) interval test (consumed + size)
            (bytes.drop size)
    else
      findFrom (d.commit timestamp) interval test (consumed + size) (bytes.drop size)
termination_by bytes.length
decreasing_by
  all_goals
    have := size_of_step_event _h
    simp only [List.length_drop]
    omega

/-- A search uses no more bytes than there are. -/
theorem consumed_findFrom_le (d : Deserializer) (interval : Interval) (test : Bytes → Option Nat)
    (consumed : Nat) (bytes : Bytes) :
    (d.findFrom interval test consumed bytes).consumed ≤ consumed + bytes.length := by
  fun_induction findFrom d interval test consumed bytes with
  | case1 | case2 | case3 => exact Nat.le_add_right ..
  | case4 d consumed bytes encoded timestamp size hs =>
    have := size_of_step_event hs
    dsimp only
    omega
  | case5 d consumed bytes encoded timestamp size hs _ _ _ _ ih
  | case6 d consumed bytes encoded timestamp size hs _ ih =>
    have := size_of_step_event hs
    rw [List.length_drop] at ih
    omega

/-- A search that finds an event uses its record. -/
theorem lt_consumed_of_findFrom {d : Deserializer} {interval : Interval}
    {test : Bytes → Option Nat} {consumed : Nat} {bytes : Bytes} {found : Match}
    (h : (d.findFrom interval test consumed bytes).result = .ok found) :
    consumed < (d.findFrom interval test consumed bytes).consumed := by
  fun_induction findFrom d interval test consumed bytes with
  | case1 | case2 | case3 => cases h
  | case4 d consumed bytes encoded timestamp size hs =>
    have := size_of_step_event hs
    dsimp only
    omega
  | case5 d consumed bytes encoded timestamp size hs _ _ _ _ ih
  | case6 d consumed bytes encoded timestamp size hs _ ih =>
    have := size_of_step_event hs
    have := ih h
    omega

/-- The first event in an interval whose message passes the test.  Records before it are
    used up, also when there is no such event. -/
def search (d : Deserializer) (interval : Interval) (test : Bytes → Option Nat) (bytes : Bytes) :
    Search :=
  d.findFrom interval test 0 bytes

theorem consumed_search_le (d : Deserializer) (interval : Interval) (test : Bytes → Option Nat)
    (bytes : Bytes) : (d.search interval test bytes).consumed ≤ bytes.length := by
  have := consumed_findFrom_le d interval test 0 bytes
  rwa [Nat.zero_add] at this

/-- The first event in an interval whose message matches a query. -/
def find (d : Deserializer) (interval : Interval) (matcher : Matcher) (bytes : Bytes) : Search :=
  d.search interval matcher.find? bytes

theorem consumed_find_le (d : Deserializer) (interval : Interval) (matcher : Matcher)
    (bytes : Bytes) : (d.find interval matcher bytes).consumed ≤ bytes.length :=
  consumed_search_le ..

end Deserializer

end LogCodec
