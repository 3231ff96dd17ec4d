import LogCodec.Proofs.Query.Language
import LogCodec.Proofs.Reader.Answers
import LogCodec.Proofs.Stream.Laid

/-! # Any mix of read operations

    A reader of a stream of good records serves requests of all kinds in any
    order.  It is always at a place in the list of events of the stream.  Each
    request takes it to the first event from there on that meets the criterion
    of the request, and past it.

    * `Request`: the read operations.
    * `Request.Meets`: the events that a request asks for.
    * `Request.expected`: what a request comes to at a place.
    * `Inquiry`: a request, or a property that keeps a state from event to event and from one
      inquiry to the next.
    * `At`: the invariant.  The reader is at a place.
    * `At.watch`: reading until such a property holds.
    * `At.run_expected`: one request.
    * `serve_open`: all of them, from the opening of the reader on. -/

namespace LogCodec

/-! ### Requests -/

/-- A call of a read operation. -/
inductive Request where
  /-- The next event. -/
  | next
  /-- The next event at or after a time. -/
  | untilTimestamp (timestamp : Int64)
  /-- The next event whose message contains some bytes. -/
  | untilContains (needle : Bytes)
  /-- The next event whose message starts with some bytes. -/
  | untilStartsWith (front : Bytes)
  /-- The next event whose message ends with some bytes. -/
  | untilEndsWith (back : Bytes)
  /-- The next event with some property. -/
  | untilTrue (p : Event → Bool)
  /-- The next event in an interval that matches a query. -/
  | search (interval : Interval) (queries : List Query)

namespace Request

/-- An event, and for a search the index of a query. -/
abbrev Answer := Outcome Error (Event × Option Nat)

/-- What a reader does with a request. -/
def run (request : Request) (r : Reader) : Answer × Reader :=
  match request with
  | next => r.readEvent.map (.map (·, none)) id
  | untilTimestamp timestamp => (r.readUntilTimestamp timestamp).map (.map (·, none)) id
  | untilContains needle => (r.readUntilContains needle).map (.map (·, none)) id
  | untilStartsWith front => (r.readUntilStartsWith front).map (.map (·, none)) id
  | untilEndsWith back => (r.readUntilEndsWith back).map (.map (·, none)) id
  | untilTrue p => (r.readUntil p).map (.map (·, none)) id
  | search interval queries =>
    (r.readMatch interval queries).map (.map fun found => (found.event, some found.query)) id

/-- Is the event one that the request stops at? -/
def accepts : Request → Event → Bool
  | next, _ => true
  | untilTimestamp timestamp, e => timestamp ≤ e.timestamp
  | untilContains needle, e => Bytes.contains needle e.message
  | untilStartsWith front, e => front.isPrefixOf e.message
  | untilEndsWith back, e => back.isSuffixOf e.message
  | untilTrue p, e => p e
  | search interval queries, e =>
    interval.contains e.timestamp && queries.any (·.matchesMessage e.message)

/-- The event meets the criterion of the request. -/
def Meets : Request → Event → Prop
  | next, _ => True
  | untilTimestamp timestamp, e => timestamp ≤ e.timestamp
  | untilContains needle, e => ∃ front back, e.message = front ++ needle ++ back
  | untilStartsWith front, e => ∃ back, e.message = front ++ back
  | untilEndsWith back, e => ∃ front, e.message = front ++ back
  | untilTrue p, e => p e = true
  | search interval queries, e =>
    (interval.lower ≤ e.timestamp ∧ e.timestamp ≤ interval.upper) ∧
      ∃ query ∈ queries, query.Admits e.message

theorem accepts_iff_meets {request : Request} {event : Event} :
    request.accepts event = true ↔ request.Meets event := by
  cases request with
  | next | untilTrue => simp [accepts, Meets]
  | untilTimestamp => simp [accepts, Meets]
  | untilContains => exact Bytes.contains_iff
  | untilStartsWith front =>
    rw [accepts, List.isPrefixOf_iff_prefix]
    exact exists_congr fun _ => eq_comm
  | untilEndsWith back =>
    rw [accepts, List.isSuffixOf_iff_suffix]
    exact exists_congr fun _ => eq_comm
  | search interval queries =>
    simp only [accepts, Meets, Interval.contains, Bool.and_eq_true, decide_eq_true_eq,
      List.any_eq_true, Query.matchesMessage_iff_admits]

instance (request : Request) : DecidablePred request.Meets := fun _ =>
  decidable_of_iff _ accepts_iff_meets

/-- The first query that admits the message of the event. -/
def query? : Request → Event → Option Nat
  | search _ queries, e => queries.findIdx? fun query => query.Admits e.message
  | _, _ => none

/-- Are events counted that the request passes over? -/
def counting : Request → Bool
  | search .. => false
  | _ => true

/-- What a request comes to at a place, and the place after it.  If no event
    meets the criterion, reading ends as the stream does. -/
def expected (ending : Error) (request : Request) (place : Place) : Answer × Place :=
  match place.seek (fun event => request.Meets event) request.counting with
  | (some event, place) => (.found (event, request.query? event), place)
  | (none, place) => (Reader.outcome (.error ending), place)

/-- The events that meet the criterion are those that the request stops at. -/
theorem meets_eq_accepts (request : Request) :
    (fun event => decide (request.Meets event)) = request.accepts := by
  funext event
  rw [Bool.eq_iff_iff, decide_eq_true_iff, accepts_iff_meets]

/-- What is seen of a request from outside: the answer, and then the place in the
    stream and the count of events. -/
structure Reply where
  answer : Answer
  offset : Nat
  events : Nat
deriving DecidableEq

end Request

/-- What a caller who keeps a state asks a reader for. -/
inductive Inquiry (τ : Type) where
  /-- A request, which leaves the state as it is. -/
  | ask (request : Request)
  /-- The next event with some property.  What it says may depend on the state, and change
      it. -/
  | watch (p : τ → Event → Bool × τ)

namespace Inquiry

variable {τ : Type}

/-- What a reader does with it. -/
def run (inquiry : Inquiry τ) (t : τ) (r : Reader) : Request.Answer × τ × Reader :=
  match inquiry with
  | ask request =>
    let (answer, r) := request.run r
    (answer, t, r)
  | watch p => (r.readWatching p t).map (.map (·, none)) id

/-- What it comes to at a place, and the state and the place after it. -/
def expected (ending : Error) (inquiry : Inquiry τ) (t : τ) (place : Place) :
    Request.Answer × τ × Place :=
  match inquiry with
  | ask request =>
    let (answer, place) := request.expected ending place
    (answer, t, place)
  | watch p =>
    match place.watch p t with
    | (some event, t, place) => (.found (event, none), t, place)
    | (none, t, place) => (Reader.outcome (.error ending), t, place)

end Inquiry

open Request (Reply)

/-- Serves requests one after another. -/
def Reader.serve (r : Reader) : List Request → List Reply
  | [] => []
  | request :: rest =>
    let (answer, r) := request.run r
    ⟨answer, r.window.streamOffset, r.events⟩ :: r.serve rest

/-- What serving requests comes to. -/
def Place.serve (ending : Error) (place : Place) : List Request → List Reply
  | [] => []
  | request :: rest =>
    let (answer, place) := request.expected ending place
    ⟨answer, place.offset, place.counted⟩ :: place.serve ending rest

/-- Serves the inquiries of a caller who keeps a state.  With each reply stands the state
    after it. -/
def Reader.attend {τ : Type} (r : Reader) (t : τ) : List (Inquiry τ) → List (Reply × τ)
  | [] => []
  | inquiry :: rest =>
    let (answer, t, r) := inquiry.run t r
    (⟨answer, r.window.streamOffset, r.events⟩, t) :: r.attend t rest

/-- What serving them comes to. -/
def Place.attend {τ : Type} (ending : Error) (place : Place) (t : τ) :
    List (Inquiry τ) → List (Reply × τ)
  | [] => []
  | inquiry :: rest =>
    let (answer, t, place) := inquiry.expected ending t place
    (⟨answer, place.offset, place.counted⟩, t) :: place.attend ending t rest

/-! ### Matchers -/

namespace Matcher

/-- A matcher finds the first query that matches. -/
theorem find?_ofQueries (queries : List Query) (message : Bytes) :
    (ofQueries queries).find? message = queries.findIdx? (·.matchesMessage message) := by
  simp only [find?, ofQueries, List.findIdx?_map]
  rfl

/-- It is the first query that admits the message. -/
theorem find?_ofQueries_eq_query? (interval : Interval) (queries : List Query) (event : Event) :
    (ofQueries queries).find? event.message = (Request.search interval queries).query? event := by
  rw [find?_ofQueries, Request.query?]
  congr 1
  funext query
  rw [Bool.eq_iff_iff, decide_eq_true_iff, Query.matchesMessage_iff_admits]

theorem isSome_find?_ofQueries (queries : List Query) (message : Bytes) :
    ((ofQueries queries).find? message).isSome = queries.any (·.matchesMessage message) := by
  rw [find?_ofQueries, List.findIdx?_isSome]

end Matcher

namespace Reader

/-! ### Places -/

/-- The reader is at a place of a stream that ends with `ending`. -/
structure At (ending : Error) (place : Place) (r : Reader) : Prop where
  steady : r.source.SteadyToEnd
  stands : r.deserializer.Stands r.pending place.remaining ending
  offset : r.window.streamOffset = place.offset
  events : r.events = place.counted

variable {ending : Error} {r : Reader}

/-- A reader that went on is where its deserializer got to. -/
theorem At.of_advances {place after : Place} {r' : Reader} {d : Deserializer} {size : Nat}
    (h : At ending place r) (hadvances : r.Advances size d r')
    (hstands : d.Stands (r.pending.drop size) after.remaining ending)
    (hoffset : after.offset = place.offset + size) (hevents : r'.events = after.counted) :
    At ending after r' := by
  refine ⟨hadvances.steady h.steady, ?_, ?_, hevents⟩
  · rw [hadvances.deserializer, hadvances.pending]
    exact hstands
  · rw [hadvances.offset, h.offset, hoffset]

section

variable {placed : Placed} {rest : List Placed} {offset counted : Nat}

/-- The next event is read. -/
theorem At.next_cons (h : At ending ⟨placed :: rest, offset, counted⟩ r) :
    ∃ r', r.next = (.ok placed.event, r') ∧
      At ending ⟨rest, offset + placed.size, counted + 1⟩ r' := by
  obtain ⟨d, hsaid, hstands⟩ := h.stands.next_cons
  have hanswers := next_answers h.steady
  rw [hsaid] at hanswers
  obtain ⟨hok, hadvances, hevents⟩ := hanswers
  rw [h.events] at hevents
  exact ⟨r.next.2, Prod.ext hok rfl, h.of_advances hadvances hstands rfl hevents⟩

/-- The end is met. -/
theorem At.next_nil (h : At ending ⟨[], offset, counted⟩ r) :
    ∃ r', r.next = (.error ending, r') ∧ At ending ⟨[], offset, counted⟩ r' := by
  obtain ⟨d, hsaid, hstands⟩ := h.stands.next_nil
  have hanswers := next_answers h.steady
  rw [hsaid] at hanswers
  obtain ⟨herror, hadvances, hevents⟩ := hanswers
  rw [h.events] at hevents
  exact ⟨r.next.2, Prod.ext herror rfl, h.of_advances hadvances hstands rfl hevents⟩

end

/-! ### Reading until a property holds -/

theorem nextUntil_of_ok {p : Event → Bool} {r' : Reader} {event : Event}
    (h : r.next = (.ok event, r')) :
    r.nextUntil p = if p event then (.ok event, r') else r'.nextUntil p := by
  rw [nextUntil]
  split <;> simp_all

theorem nextUntil_of_error {p : Event → Bool} {r' : Reader} {error : Error}
    (h : r.next = (.error error, r')) : r.nextUntil p = (.error error, r') := by
  rw [nextUntil]
  split <;> simp_all

section

variable {τ : Type} {p : τ → Event → Bool × τ} {t : τ} {r' : Reader}

theorem watch_of_ok {event : Event} (h : r.next = (.ok event, r')) :
    r.watch p t = if (p t event).1 then (.ok event, (p t event).2, r')
      else r'.watch p (p t event).2 := by
  rw [Reader.watch]
  split <;> simp_all

theorem watch_of_error {error : Error} (h : r.next = (.error error, r')) :
    r.watch p t = (.error error, t, r') := by
  rw [Reader.watch]
  split <;> simp_all

end

/-- Reading until a property holds that keeps a state takes the reader past the first event
    of which it holds when it is asked about all events before. -/
theorem At.watch {τ : Type} {place : Place} (h : At ending place r) (p : τ → Event → Bool × τ)
    (t : τ) :
    ∃ r', r.watch p t =
        ((place.watch p t).1.elim (.error ending) .ok, (place.watch p t).2.1, r') ∧
      At ending (place.watch p t).2.2 r' := by
  obtain ⟨remaining, offset, counted⟩ := place
  unfold Place.watch
  dsimp only
  induction remaining generalizing r t offset counted with
  | nil =>
    obtain ⟨r', hnext, hat⟩ := h.next_nil
    rw [watch_of_error hnext]
    exact ⟨r', rfl, hat⟩
  | cons placed rest ih =>
    obtain ⟨r', hnext, hat⟩ := h.next_cons
    rw [watch_of_ok hnext, Place.watchFrom]
    by_cases hp : (p t placed.event).1 = true
    · rw [if_pos hp, if_pos hp]
      exact ⟨r', rfl, hat⟩
    · -- the event is counted, and reading goes on behind it
      rw [if_neg hp, if_neg hp]
      exact ih _ _ _ hat

/-- A property that keeps nothing in mind. -/
theorem nextUntil_eq_watch (p : Event → Bool) (r : Reader) :
    r.nextUntil p =
      ((r.watch (fun _ event => (p event, ())) ()).1,
        (r.watch (fun _ event => (p event, ())) ()).2.2) := by
  fun_induction nextUntil p r with
  | case1 r event r' hnext hp => rw [watch_of_ok hnext, if_pos hp]
  | case2 r event r' hnext hp ih => rw [watch_of_ok hnext, if_neg hp, ih]
  | case3 r error r' hnext => rw [watch_of_error hnext]

/-- Reading until some event has the property takes the reader past the first one. -/
theorem At.nextUntil {place : Place} (h : At ending place r) (p : Event → Bool) :
    ∃ r', r.nextUntil p = ((place.seek p true).1.elim (.error ending) .ok, r') ∧
      At ending (place.seek p true).2 r' := by
  obtain ⟨r', hwatch, hat⟩ := h.watch (fun _ event => (p event, ())) ()
  rw [Place.watch_eq_seek] at hwatch hat
  refine ⟨r', ?_, hat⟩
  rw [nextUntil_eq_watch, hwatch]

/-- Reading the next event is reading until any event. -/
theorem next_eq_nextUntil : r.next = r.nextUntil fun _ => true := by
  cases h : r.next with
  | mk result r' =>
    cases result with
    | ok event => rw [nextUntil_of_ok h, if_pos rfl]
    | error error => rw [nextUntil_of_error h]

/-! ### Searching -/

/-- A search takes the reader past the first event that it looks for. -/
theorem At.nextMatch {place : Place} (h : At ending place r) (interval : Interval)
    (matcher : Matcher) :
    ∃ r', At ending (place.seek (Deserializer.Stands.sought interval matcher) false).2 r' ∧
      match (place.seek (Deserializer.Stands.sought interval matcher) false).1 with
      | some event => ∃ query, matcher.find? event.message = some query ∧
          r.nextMatch interval matcher = (.ok ⟨event, query⟩, r')
      | none => r.nextMatch interval matcher = (.error ending, r') := by
  obtain ⟨remaining, offset, counted⟩ := place
  have hfinds := h.stands.findFrom interval matcher 0 offset counted
  have hanswers := nextMatch_answers h.steady interval matcher
  have hcounted := Place.counted_seek_false (Deserializer.Stands.sought interval matcher)
    ⟨remaining, offset, counted⟩
  rw [Deserializer.find, Deserializer.search] at hanswers
  generalize Place.seek _ false _ = found at hfinds hcounted ⊢
  obtain ⟨hit, after⟩ := found
  -- the reader is at the place where the search got to, whatever it found
  have hat (hevents : (r.nextMatch interval matcher).2.events = after.counted) :
      At ending after (r.nextMatch interval matcher).2 := by
    refine h.of_advances hanswers.advances hfinds.stands ?_ hevents
    have hconsumed := hfinds.consumed_eq
    dsimp only at hconsumed ⊢
    omega
  have hevents := hanswers.events
  rw [h.events] at hevents
  refine ⟨(r.nextMatch interval matcher).2, ?_, ?_⟩
  · cases hit with
    | some event =>
      obtain ⟨query, -, hanswer⟩ := hfinds.answer
      apply hat
      rw [hevents, hanswer, hcounted]
      rfl
    | none =>
      apply hat
      rw [hevents, hfinds.answer, hcounted]
      rfl
  · cases hit with
    | some event =>
      obtain ⟨query, hquery, hanswer⟩ := hfinds.answer
      exact ⟨query, hquery, Prod.ext (hanswers.result.trans hanswer) rfl⟩
    | none => exact Prod.ext (hanswers.result.trans hfinds.answer) rfl

/-! ### Requests -/

/-- What is seen of a request that reads until some event is accepted. -/
theorem run_eq_nextUntil {request : Request} (h : request.counting = true) :
    request.run r = ((outcome (r.nextUntil request.accepts).1).map (·, none),
      (r.nextUntil request.accepts).2) := by
  cases request with
  | search => cases h
  | next =>
    show ((outcome r.next.1).map (·, none), r.next.2) = _
    rw [next_eq_nextUntil]
    rfl
  | _ => rfl

theorem map_outcome_error {α β : Type} (f : α → β) (error : Error) :
    (outcome (.error error)).map f = outcome (.error error) := by
  cases error <;> rfl

theorem query?_of_not_search {request : Request} (h : request.counting = true) (event : Event) :
    request.query? event = none := by
  cases request with
  | search => cases h
  | _ => rfl

/-- A search looks for the events that its request accepts. -/
theorem sought_ofQueries (interval : Interval) (queries : List Query) :
    Deserializer.Stands.sought interval (Matcher.ofQueries queries) =
      (Request.search interval queries).accepts := by
  funext event
  rw [Deserializer.Stands.sought, Matcher.isSome_find?_ofQueries, Request.accepts]

section

variable {place : Place} (h : At ending place r)

include h

/-- A request that is no search. -/
theorem At.run_of_not_search {request : Request} (hcounting : request.counting = true) :
    ∃ r', request.run r = ((request.expected ending place).1, r') ∧
      At ending (request.expected ending place).2 r' := by
  obtain ⟨r', hnext, hat⟩ := h.nextUntil request.accepts
  rw [run_eq_nextUntil hcounting, hnext, Request.expected, Request.meets_eq_accepts, hcounting]
  generalize place.seek request.accepts true = found at hat ⊢
  obtain ⟨hit, after⟩ := found
  cases hit with
  | some event =>
    refine ⟨r', ?_, hat⟩
    simp [query?_of_not_search hcounting, outcome, Outcome.map]
  | none =>
    refine ⟨r', ?_, hat⟩
    simp [map_outcome_error]

/-- A search. -/
theorem At.run_search (interval : Interval) (queries : List Query) :
    ∃ r', (Request.search interval queries).run r =
        (((Request.search interval queries).expected ending place).1, r') ∧
      At ending ((Request.search interval queries).expected ending place).2 r' := by
  obtain ⟨r', hat, hanswer⟩ := h.nextMatch interval (Matcher.ofQueries queries)
  rw [sought_ofQueries] at hat hanswer
  rw [Request.expected, Request.meets_eq_accepts, Request.counting]
  generalize place.seek (Request.search interval queries).accepts false = found at hat hanswer ⊢
  obtain ⟨hit, after⟩ := found
  cases hit with
  | some event =>
    obtain ⟨query, hquery, hmatch⟩ := hanswer
    rw [Matcher.find?_ofQueries_eq_query? interval] at hquery
    refine ⟨r', ?_, hat⟩
    simp [Request.run, readMatch, hmatch, hquery, outcome, Outcome.map]
  | none =>
    dsimp only at hanswer
    refine ⟨r', ?_, hat⟩
    simp [Request.run, readMatch, hanswer, map_outcome_error]

/-- **One request** takes the reader to the first event that it accepts, and past
    it. -/
theorem At.run_expected (request : Request) :
    ∃ r', request.run r = ((request.expected ending place).1, r') ∧
      At ending (request.expected ending place).2 r' := by
  cases request with
  | search interval queries => exact h.run_search interval queries
  -- all others read until some event is accepted
  | _ => exact h.run_of_not_search rfl

end

/-- **One inquiry**, for a request or for a property that keeps a state. -/
theorem At.inquiry_expected {τ : Type} {place : Place} (h : At ending place r) (inquiry : Inquiry τ)
    (t : τ) :
    ∃ r', inquiry.run t r =
        ((inquiry.expected ending t place).1, (inquiry.expected ending t place).2.1, r') ∧
      At ending (inquiry.expected ending t place).2.2 r' := by
  cases inquiry with
  | ask request =>
    obtain ⟨r', hrun, hat⟩ := h.run_expected request
    refine ⟨r', ?_, hat⟩
    simp only [Inquiry.run, hrun]
    rfl
  | watch p =>
    obtain ⟨r', hwatch, hat⟩ := h.watch p t
    simp only [Inquiry.run, readWatching, hwatch, Inquiry.expected]
    generalize place.watch p t = found at hat ⊢
    obtain ⟨hit, t', after⟩ := found
    cases hit with
    | some event => exact ⟨r', rfl, hat⟩
    | none =>
      refine ⟨r', ?_, hat⟩
      simp [map_outcome_error]

/-- Requests are served one after another. -/
theorem serve_expected {place : Place} (h : At ending place r) (requests : List Request) :
    r.serve requests = place.serve ending requests := by
  induction requests generalizing r place with
  | nil => rfl
  | cons request rest ih =>
    obtain ⟨r', hrun, hat⟩ := h.run_expected request
    simp only [serve, Place.serve, hrun, hat.offset, hat.events]
    rw [ih hat]

/-- And so are inquiries, each in the state that the one before it left. -/
theorem attend_expected {τ : Type} {place : Place} (h : At ending place r) (t : τ)
    (inquiries : List (Inquiry τ)) : r.attend t inquiries = place.attend ending t inquiries := by
  induction inquiries generalizing r place t with
  | nil => rfl
  | cons inquiry rest ih =>
    obtain ⟨r', hrun, hat⟩ := h.inquiry_expected inquiry t
    simp only [attend, Place.attend, hrun, hat.offset, hat.events]
    rw [ih hat]

/-- **Any mix of read operations.**  For a stream with a valid preamble whose
    records can all be decoded, which ends with its tag or is cut short, read
    from a steady source through a buffer of any capacity: each of any requests
    is answered with the first event, from the place of the reader on, that
    meets its criterion, and takes the reader just past that event.  So no event
    is lost, read twice, or read out of order.  The same holds of a caller who
    keeps a state, on which what is asked of an event may depend. -/
theorem serve_open {source : Source} (hsteady : source.Steady) (capacity : Nat)
    {d : Deserializer} {size : Nat} (hd : Deserializer.ofBytes source.data = .ok (d, size))
    {events : List Placed} {ending : Error}
    (hlaid : Laid d.width d.running (source.data.drop size) events ending) :
    ∃ r, Reader.open source capacity = .ok r ∧
      (∀ requests, r.serve requests = Place.serve ending ⟨events, size, 0⟩ requests) ∧
      ∀ {τ : Type} (t : τ) (inquiries : List (Inquiry τ)),
        r.attend t inquiries = Place.attend ending ⟨events, size, 0⟩ t inquiries := by
  have hopen := open_answers hsteady capacity
  rw [hd] at hopen
  obtain ⟨r, hr, hopened⟩ := hopen
  have hat : At ending ⟨events, size, 0⟩ r := by
    refine ⟨hopened.steady, ?_, ?_, hopened.events⟩
    · rw [hopened.deserializer, hopened.pending]
      exact .live (Deserializer.live_of_ofBytes hd) hlaid
    · rw [hopened.offset, Nat.zero_add]
  exact ⟨r, hr, serve_expected hat, attend_expected hat⟩

/-- A stream of six events.  Their times are differences, and the second one holds an
    integer. -/
def mixed : Bytes :=
  [0xFD, 0x2F, 0xB5, 0x29, 4, 1, 0, 2, 0x7B, 0x7D] ++
    ([1, 0, 0, 0, 1, 0x41, 0, 0, 0, 0, 0, 0, 0, 0, 0, 0, 0, 0, 0, 0, 0, 0, 0, 0, 0, 7] ++
      ([1, 0, 0, 0, 2, 0x61, 0x11, 0, 0, 0, 1, 0, 0, 0, 5, 0, 0, 0, 0, 0, 0, 0, 0,
          0xFF, 0xFF, 0xFF, 0xFF, 0xFF, 0xFF, 0xFF, 0xFC] ++
        ([1, 0, 0, 0, 2, 0x7A, 0x7A, 0, 0, 0, 0, 0, 0, 0, 0, 0, 0, 0, 0, 0, 0, 0, 0, 0, 0, 0, 6] ++
          ([1, 0, 0, 0, 3, 0x78, 0x62, 0x63, 0, 0, 0, 0, 0, 0, 0, 0, 0, 0, 0, 0,
              0, 0, 0, 0, 0, 0, 0, 0] ++
            ([1, 0, 0, 0, 1, 0x65, 0, 0, 0, 0, 0, 0, 0, 0, 0, 0, 0, 0,
                0xFF, 0xFF, 0xFF, 0xFF, 0xFF, 0xFF, 0xFF, 0xF9] ++
              ([1, 0, 0, 0, 1, 0x63, 0, 0, 0, 0, 0, 0, 0, 0, 0, 0, 0, 0, 0, 0, 0, 0, 0, 0, 0, 8] ++
                [0]))))))

/-- Its events, and how long their records are. -/
def mixedEvents : List Placed :=
  [⟨⟨[0x41], 7⟩, 26⟩, ⟨⟨[0x61, 0x35], 3⟩, 31⟩, ⟨⟨[0x7A, 0x7A], 9⟩, 27⟩,
    ⟨⟨[0x78, 0x62, 0x63], 9⟩, 28⟩, ⟨⟨[0x65], 2⟩, 26⟩, ⟨⟨[0x63], 10⟩, 26⟩]

theorem laid_mixed : Laid .fourByte 0 (mixed.drop 10) mixedEvents .endOfStream := by
  apply Laid.record (r := ⟨⟨[0x41], [], [], []⟩, 7⟩) rfl (by decide +kernel)
  apply Laid.record (r := ⟨⟨[0x61, 0x11], [5], [], []⟩, -4⟩) rfl (by decide +kernel)
  apply Laid.record (r := ⟨⟨[0x7A, 0x7A], [], [], []⟩, 6⟩) rfl (by decide +kernel)
  apply Laid.record (r := ⟨⟨[0x78, 0x62, 0x63], [], [], []⟩, 0⟩) rfl (by decide +kernel)
  apply Laid.record (r := ⟨⟨[0x65], [], [], []⟩, -7⟩) rfl (by decide +kernel)
  apply Laid.record (r := ⟨⟨[0x63], [], [], []⟩, 8⟩) rfl (by decide +kernel)
  exact .finish 10 []

/-- It is read three bytes at a time.  The second event is the first one before which another
    was asked about, the fourth one contains a letter, and the last one matches the second
    query.  The one before that is too early. -/
theorem serve_open_mixed :
    ∃ r, Reader.open (.inChunks 3 mixed) 1 = .ok r ∧
      r.attend 0 [.watch fun asked _ => (asked == 1, asked + 1), .ask (.untilContains [0x62]),
          .ask (.search ⟨9, Int64.maxValue⟩ [⟨"b*", true⟩, ⟨"?", true⟩]), .ask .next] =
        [(⟨.found (⟨[0x61, 0x35], 3⟩, none), 67, 2⟩, 2),
          (⟨.found (⟨[0x78, 0x62, 0x63], 9⟩, none), 122, 4⟩, 2),
          (⟨.found (⟨[0x63], 10⟩, some 1), 174, 5⟩, 2), (⟨.done, 174, 5⟩, 2)] := by
  have hd : Deserializer.ofBytes mixed =
      .ok (Deserializer.ofPreamble ⟨.fourByte, ⟨"", "", ""⟩, 0⟩, 10) := by
    decide +kernel
  obtain ⟨r, hopen, -, hattend⟩ :=
    serve_open (Source.steady_inChunks (by decide : 0 < 3) mixed) 1 hd laid_mixed
  refine ⟨r, hopen, ?_⟩
  rw [hattend]
  decide +kernel

end Reader

end LogCodec
