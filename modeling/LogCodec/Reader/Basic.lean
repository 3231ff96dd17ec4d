import LogCodec.Outcome
import LogCodec.Reader.Window
import LogCodec.Stream.Deserializer

/-! # Readers

    A reader reads the events of a stream from a byte source.  It hands the
    window of its buffer to a deserializer, and reads from the source when the
    window ends inside a record.  `Error.incomplete` is its answer only when the
    source has nothing more to give.

    - `Reader.open` reads the preamble.
    - `Reader.readEvent` reads the next event.
    - `Reader.readUntil` reads until an event with some property, and
      `Reader.readWatching` with one that keeps a state.
    - `Reader.nextPassing` reads until an event in an interval whose message passes a
      test, and `Reader.readMatch` until one that matches a query. -/

namespace LogCodec

/-- A stream being read from a source. -/
structure Reader where
  source : Source
  deserializer : Deserializer
  window : Window
  /-- Events that were returned, or read on the way to one by `readUntil`. -/
  events : Nat

namespace Reader

/-! ### Opening -/

/-- Reads from the source until the window holds a preamble. -/
def openWith (source : Source) (window : Window) : Result Reader :=
  match hp : Deserializer.ofBytes window.bytes with
  | .ok (deserializer, size) =>
    .ok ⟨source, deserializer, window.consume size (Deserializer.size_of_ofBytes hp), 0⟩
  | .error .incomplete =>
    match _h : window.fill source with
    | (.more, window, source) => openWith source window
    | (.exhausted, _, _) => .error .incomplete
    | (.failed reason, _, _) => .error (.io reason)
  | .error error => .error error
termination_by source.data.length
decreasing_by exact (Window.length_of_fill_more _h).1

/-- The reader of the stream that a source gives, with a buffer of at least this
    capacity. -/
def «open» (source : Source) (capacity : Nat) : Result Reader :=
  openWith source (Window.empty capacity)

/-! ### Reading the next event -/

/-- The next event.  A record that is not complete is tried again after each
    read of the source. -/
def next (r : Reader) : Result Event × Reader :=
  match hn : r.deserializer.next r.window.bytes with
  | (.ok (event, size), deserializer) =>
    (.ok event, { r with
      deserializer := deserializer
      window := r.window.consume size (Deserializer.size_of_next hn).2
      events := r.events + 1 })
  | (.error .incomplete, deserializer) =>
    match _h : r.window.fill r.source with
    | (.more, window, source) => next { r with source, deserializer, window }
    | (.exhausted, window, source) =>
      (.error .incomplete, { r with source, deserializer, window })
    | (.failed reason, window, source) =>
      (.error (.io reason), { r with source, deserializer, window })
  | (.error error, deserializer) => (.error error, { r with deserializer })
termination_by r.source.data.length
decreasing_by exact (Window.length_of_fill_more _h).1

/-- The end of a stream is no error. -/
def outcome {α : Type} : Result α → Outcome Error α
  | .ok value => .found value
  | .error .endOfStream => .done
  | .error error => .failed error

/-- Reads the next event. -/
def readEvent (r : Reader) : Outcome Error Event × Reader :=
  let (result, r) := r.next
  (outcome result, r)

/-! ### Reading until a property holds -/

/-- The bytes of the stream that are still to be used. -/
def ahead (r : Reader) : Nat := r.window.bytes.length + r.source.data.length

/-- An event uses bytes of the stream. -/
theorem ahead_of_next {r r' : Reader} {event : Event} (h : r.next = (.ok event, r')) :
    r'.ahead < r.ahead := by
  fun_induction next r with
  | case1 r event' size d hd =>
    simp only [Prod.mk.injEq, Except.ok.injEq] at h
    obtain ⟨-, rfl⟩ := h
    have := Deserializer.size_of_next hd
    simp only [ahead, Window.bytes_consume, List.length_drop]
    omega
  | case2 r d hd window source hf ih =>
    -- bytes that were read were ahead before, too
    have := ih h
    have := (Window.length_of_fill_more hf).2
    simp only [ahead] at *
    omega
  | case3 | case4 | case5 => simp at h

/-- Reads events until one has the property. -/
def nextUntil (p : Event → Bool) (r : Reader) : Result Event × Reader :=
  match _h : r.next with
  | (.ok event, r') => if p event then (.ok event, r') else nextUntil p r'
  | (.error error, r') => (.error error, r')
termination_by r.ahead
decreasing_by exact ahead_of_next _h

/-- Reads until an event with the property. -/
def readUntil (p : Event → Bool) (r : Reader) : Outcome Error Event × Reader :=
  let (result, r) := r.nextUntil p
  (outcome result, r)

/-- Reads until an event at or after a time. -/
def readUntilTimestamp (r : Reader) (timestamp : Int64) : Outcome Error Event × Reader :=
  r.readUntil fun event => timestamp ≤ event.timestamp

/-- Reads until an event whose message contains some bytes. -/
def readUntilContains (r : Reader) (needle : Bytes) : Outcome Error Event × Reader :=
  r.readUntil fun event => Bytes.contains needle event.message

/-- Reads until an event whose message starts with some bytes. -/
def readUntilStartsWith (r : Reader) (front : Bytes) : Outcome Error Event × Reader :=
  r.readUntil fun event => front.isPrefixOf event.message

/-- Reads until an event whose message ends with some bytes. -/
def readUntilEndsWith (r : Reader) (back : Bytes) : Outcome Error Event × Reader :=
  r.readUntil fun event => back.isSuffixOf event.message

section

variable {τ : Type} (p : τ → Event → Bool × τ)

/-- Reads events until one has the property.  What the property says may depend on the
    events that it was asked about before. -/
def watch (t : τ) (r : Reader) : Result Event × τ × Reader :=
  match _h : r.next with
  | (.ok event, r') =>
    if (p t event).1 then (.ok event, (p t event).2, r') else watch (p t event).2 r'
  | (.error error, r') => (.error error, t, r')
termination_by r.ahead
decreasing_by exact ahead_of_next _h

/-- Reads until an event with the property. -/
def readWatching (t : τ) (r : Reader) : Outcome Error Event × τ × Reader :=
  let (result, t, r) := r.watch p t
  (outcome result, t, r)

end

/-! ### Searching -/

/-- Reads until an event in the interval whose message passes the test.  Records
    that were skipped are used up before the source is read. -/
def nextPassing (r : Reader) (interval : Interval) (test : Bytes → Option Nat) :
    Result Match × Reader :=
  let search := r.deserializer.search interval test r.window.bytes
  let window := r.window.consume search.consumed (Deserializer.consumed_search_le ..)
  let deserializer := search.after
  match search.result with
  | .ok found =>
    (.ok found, { r with deserializer, window, events := r.events + 1 })
  | .error .incomplete | .error .noMatch =>
    match _h : window.fill r.source with
    | (.more, window, source) =>
      nextPassing { r with source, deserializer, window } interval test
    | (.exhausted, window, source) =>
      (.error .incomplete, { r with source, deserializer, window })
    | (.failed reason, window, source) =>
      (.error (.io reason), { r with source, deserializer, window })
  | .error error => (.error error, { r with deserializer, window })
termination_by r.source.data.length
decreasing_by all_goals exact (Window.length_of_fill_more _h).1

/-- Reads until an event in the interval that the matcher finds. -/
def nextMatch (r : Reader) (interval : Interval) (matcher : Matcher) : Result Match × Reader :=
  r.nextPassing interval matcher.find?

/-- Reads until an event in the interval that matches one of the queries. -/
def readMatch (r : Reader) (interval : Interval) (queries : List Query) :
    Outcome Error Match × Reader :=
  let (result, r) := r.nextMatch interval (Matcher.ofQueries queries)
  (outcome result, r)

/-! ### Closing -/

/-- A closed reader reads no more.  Its place in the stream is kept. -/
def close (r : Reader) : Reader :=
  { r with deserializer := r.deserializer.close, window := r.window.release }

end Reader

end LogCodec
