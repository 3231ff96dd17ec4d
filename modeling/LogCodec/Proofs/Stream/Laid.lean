import LogCodec.Proofs.Stream.Deserializer
import LogCodec.Proofs.Stream.Transcript

/-! # Streams of records that can be decoded

    A stream of good records is determined by its events, by the sizes of their
    records, and by how it ends: with the tag of the end, or cut short inside a
    record.

    - `Laid`: the bytes of such a stream, from some place on.
    - `Place.seek`, `Place.watch`: the first event with some property, from a place on.
    - `Deserializer.Stands`: a deserializer at such a place.
    - `Deserializer.Stands.next_cons`, `Deserializer.Stands.next_nil`: it reads
      the next event, or meets the end.
    - `Deserializer.Stands.findFrom`: a search finds the first event that it looks
      for.
    - `Deserializer.Live.exists_laid_iff`: nothing but such a stream is read up to
      its end. -/

namespace LogCodec

/-- An event of a stream, and how many bytes its record has. -/
structure Placed where
  event : Event
  size : Nat
deriving DecidableEq

/-- These bytes hold the records of these events, after an event at the time
    `running`.  Then reading fails with `ending`: the stream ends, or it was cut
    short. -/
inductive Laid (w : Width) : (running : Int64) → Bytes → List Placed → (ending : Error) → Prop where
  /-- The end of the stream. -/
  | finish (running : Int64) (rest : Bytes) :
    Laid w running (Record.endTag :: rest) [] .endOfStream
  /-- Nothing, or a part of a record. -/
  | cut (running : Int64) {r : Record w} {bytes more : Bytes} :
    r.toBytes = .ok (bytes ++ more) → more ≠ [] → Laid w running bytes [] .incomplete
  /-- A record whose message can be put together. -/
  | record {running : Int64} {r : Record w} {bytes rest message : Bytes} {events : List Placed}
      {ending : Error} :
    r.toBytes = .ok bytes → r.encoded.render = ⟨message, none⟩ →
    Laid w (w.eventTime running r.time) rest events ending →
    Laid w running (bytes ++ rest)
      (⟨⟨message, w.eventTime running r.time⟩, bytes.length⟩ :: events) ending

/-! ### Looking for an event -/

/-- A place in a stream: the events that are left, where their records start, and
    how many events were counted before. -/
structure Place where
  remaining : List Placed
  offset : Nat
  counted : Nat
deriving DecidableEq

/-- How many bytes the records of these events have. -/
def Placed.total (events : List Placed) : Nat := (events.map Placed.size).sum

/-- The first event that is accepted, if there is one, and the place after it or
    after all events.  Events before it are counted or not. -/
def Place.seek (accepts : Event → Bool) (counting : Bool) (place : Place) : Option Event × Place :=
  let skipped := place.remaining.takeWhile (!accepts ·.event)
  let offset := place.offset + Placed.total skipped
  let counted := place.counted + if counting then skipped.length else 0
  match place.remaining.dropWhile (!accepts ·.event) with
  | [] => (none, ⟨[], offset, counted⟩)
  | hit :: rest => (some hit.event, ⟨rest, offset + hit.size, counted + 1⟩)

/-- Asks a property that keeps a state about these events, the first of which starts at this
    offset, one after another until it holds. -/
def Place.watchFrom {τ : Type} (p : τ → Event → Bool × τ) :
    τ → List Placed → (offset counted : Nat) → Option Event × τ × Place
  | t, [], offset, counted => (none, t, ⟨[], offset, counted⟩)
  | t, placed :: rest, offset, counted =>
    if (p t placed.event).1 then
      (some placed.event, (p t placed.event).2, ⟨rest, offset + placed.size, counted + 1⟩)
    else watchFrom p (p t placed.event).2 rest (offset + placed.size) (counted + 1)

/-- The first event that has the property when it is asked about one event after another, if
    there is one, what state it is left in, and the place after that event or after all
    events. -/
def Place.watch {τ : Type} (p : τ → Event → Bool × τ) (t : τ) (place : Place) :
    Option Event × τ × Place :=
  watchFrom p t place.remaining place.offset place.counted

namespace Place

variable {accepts : Event → Bool} {counting : Bool} {placed : Placed} {rest : List Placed}
  {offset counted : Nat}

theorem seek_nil :
    seek accepts counting ⟨[], offset, counted⟩ = (none, ⟨[], offset, counted⟩) := by
  simp [seek, Placed.total]

theorem seek_cons_of_accepts (h : accepts placed.event = true) :
    seek accepts counting ⟨placed :: rest, offset, counted⟩ =
      (some placed.event, ⟨rest, offset + placed.size, counted + 1⟩) := by
  simp [seek, h, Placed.total]

/-- An event that is not accepted is passed over. -/
theorem seek_cons_of_not_accepts (h : accepts placed.event = false) :
    seek accepts counting ⟨placed :: rest, offset, counted⟩ =
      seek accepts counting
        ⟨rest, offset + placed.size, counted + if counting then 1 else 0⟩ := by
  have hcounted (n : Nat) : counted + (if counting then n + 1 else 0) =
      counted + (if counting then 1 else 0) + if counting then n else 0 := by
    cases counting <;> simp; omega
  have hoffset (skipped : List Placed) : offset + Placed.total (placed :: skipped) =
      offset + placed.size + Placed.total skipped := by
    rw [Placed.total, List.map_cons, List.sum_cons, Nat.add_assoc, Placed.total]
  have hnot : (!accepts placed.event) = true := by rw [h, Bool.not_false]
  have htake : (placed :: rest).takeWhile (!accepts ·.event) =
      placed :: rest.takeWhile (!accepts ·.event) := List.takeWhile_cons_of_pos hnot
  have hdrop : (placed :: rest).dropWhile (!accepts ·.event) =
      rest.dropWhile (!accepts ·.event) := List.dropWhile_cons_of_pos hnot
  simp only [seek]
  rw [htake, hdrop, List.length_cons, hoffset, hcounted]

/-- When nothing is counted on the way, only the event that was found is. -/
theorem counted_seek_false (accepts : Event → Bool) (place : Place) :
    (place.seek accepts false).2.counted =
      if (place.seek accepts false).1.isSome then place.counted + 1 else place.counted := by
  unfold seek
  dsimp only
  split <;> simp

/-- A property that keeps nothing in mind holds first of the first event that has it. -/
theorem watch_eq_seek (accepts : Event → Bool) (place : Place) :
    place.watch (fun _ event => (accepts event, ())) () =
      ((place.seek accepts true).1, (), (place.seek accepts true).2) := by
  obtain ⟨remaining, offset, counted⟩ := place
  unfold watch
  dsimp only
  induction remaining generalizing offset counted with
  | nil =>
    rw [seek_nil]
    rfl
  | cons placed rest ih =>
    rw [watchFrom]
    dsimp only
    by_cases haccepts : accepts placed.event = true
    · rw [if_pos haccepts, seek_cons_of_accepts haccepts]
    · rw [if_neg haccepts, seek_cons_of_not_accepts (Bool.eq_false_iff.2 haccepts), ih, if_pos rfl]

/-- What is accepted at a place, and what is accepted behind the first such event.  The
    records up to the end are the same. -/
theorem filter_seek (place : Place) :
    ((place.remaining.map Placed.event).filter accepts =
      (place.seek accepts counting).1.toList ++
        ((place.seek accepts counting).2.remaining.map Placed.event).filter accepts) ∧
    (place.seek accepts counting).2.offset +
      Placed.total (place.seek accepts counting).2.remaining =
        place.offset + Placed.total place.remaining := by
  obtain ⟨remaining, offset, counted⟩ := place
  induction remaining generalizing offset counted with
  | nil =>
    rw [seek_nil]
    exact ⟨rfl, rfl⟩
  | cons placed rest ih =>
    have htotal : Placed.total (placed :: rest) = placed.size + Placed.total rest := by
      rw [Placed.total, List.map_cons, List.sum_cons, Placed.total]
    rw [List.map_cons]
    by_cases haccepts : accepts placed.event = true
    · rw [seek_cons_of_accepts haccepts, List.filter_cons_of_pos haccepts, htotal]
      exact ⟨rfl, Nat.add_assoc ..⟩
    · rw [List.filter_cons_of_neg haccepts,
        seek_cons_of_not_accepts (Bool.eq_false_iff.2 haccepts), htotal, ← Nat.add_assoc]
      exact ih _ _

/-- Fewer events are left behind an event that was found, and none when there was
    none. -/
theorem remaining_seek (place : Place) :
    match (place.seek accepts counting).1 with
    | some _ => (place.seek accepts counting).2.remaining.length < place.remaining.length
    | none => (place.seek accepts counting).2.remaining = [] := by
  cases hdrop : place.remaining.dropWhile (!accepts ·.event) with
  | nil => simp only [seek, hdrop]
  | cons hit rest =>
    have hlength := (List.dropWhile_suffix (l := place.remaining) (!accepts ·.event)).length_le
    rw [hdrop, List.length_cons] at hlength
    simp only [seek, hdrop]
    omega

theorem le_offset_seek (place : Place) : place.offset ≤ (place.seek accepts counting).2.offset := by
  unfold seek
  dsimp only
  split <;> dsimp only <;> omega

end Place

namespace Deserializer

/-- The deserializer reads these events next, and then fails with `ending` however often
    it tries. -/
inductive Stands : Deserializer → Bytes → List Placed → Error → Prop where
  | stop {d d' : Deserializer} {bytes : Bytes} {ending : Error} :
    d.step bytes = .stop ending d' → d'.step bytes = .stop ending d' → ending ≠ .noMatch →
    Stands d bytes [] ending
  | further {d : Deserializer} {bytes : Bytes} {encoded : Encoded d.width} {placed : Placed}
      {events : List Placed} {ending : Error} :
    d.step bytes = .event encoded placed.event.timestamp placed.size →
    encoded.render = ⟨placed.event.message, none⟩ →
    (∀ text, Stands ((d.withText text).commit placed.event.timestamp) (bytes.drop placed.size)
      events ending) →
    Stands d bytes (placed :: events) ending

namespace Stands

section

variable {d : Deserializer} {bytes : Bytes} {events : List Placed} {placed : Placed}
  {ending : Error}

/-! ### One event -/

/-- The step at a place where there are more events. -/
theorem step_cons (h : d.Stands bytes (placed :: events) ending) :
    ∃ encoded, d.step bytes = .event encoded placed.event.timestamp placed.size ∧
      encoded.render = ⟨placed.event.message, none⟩ ∧
      ∀ text, ((d.withText text).commit placed.event.timestamp).Stands (bytes.drop placed.size)
        events ending := by
  cases h with
  | further hstep hrender hrest => exact ⟨_, hstep, hrender, hrest⟩

/-- The step at a place where there are no more. -/
theorem step_nil (h : d.Stands bytes [] ending) :
    ∃ d', d.step bytes = .stop ending d' ∧ ending ≠ .noMatch ∧ d'.Stands bytes [] ending := by
  cases h with
  | stop hstep hagain hending => exact ⟨_, hstep, hending, .stop hagain hagain hending⟩

/-- A deserializer in front of the records of events. -/
theorem live (hlive : d.Live) (hlaid : Laid d.width d.running bytes events ending) :
    d.Stands bytes events ending := by
  generalize hrunning : d.running = running at hlaid
  generalize hwidth : d.width = w at hlaid
  induction hlaid generalizing d with
  | finish running rest =>
    refine .stop (step_endTag hlive rest) ?_ (by simp)
    simp [step, hlive.closed]
  | cut running hbytes hmore =>
    subst hwidth
    have hstep := step_of_cut hlive hbytes hmore
    exact .stop hstep hstep (by simp)
  | @record running r bytes rest message events ending hbytes hrender _ ih =>
    subst hwidth
    subst hrunning
    apply Stands.further (step_toBytes_append hlive hbytes rest) hrender
    intro text
    rw [List.drop_left]
    exact ih ⟨hlive.closed, hlive.ended⟩ rfl rfl

/-- The next event is read. -/
theorem next_cons (h : d.Stands bytes (placed :: events) ending) :
    ∃ d', d.next bytes = (.ok (placed.event, placed.size), d') ∧
      d'.Stands (bytes.drop placed.size) events ending := by
  obtain ⟨encoded, hstep, hrender, hrest⟩ := h.step_cons
  refine ⟨_, ?_, hrest placed.event.message⟩
  simp only [next, hstep, hrender]

/-- The end is met, and met again. -/
theorem next_nil (h : d.Stands bytes [] ending) :
    ∃ d', d.next bytes = (.error ending, d') ∧ d'.Stands bytes [] ending := by
  obtain ⟨d', hstep, -, hrest⟩ := h.step_nil
  refine ⟨d', ?_, hrest⟩
  simp only [next, hstep]

end

/-! ### Searching -/

/-- What a search looks for. -/
def sought (interval : Interval) (matcher : Matcher) (event : Event) : Bool :=
  interval.contains event.timestamp && (matcher.find? event.message).isSome

/-- What a search comes to that used `consumed` bytes before, and got from a place
    at this offset to another place. -/
structure Finds (matcher : Matcher) (ending : Error) (consumed offset : Nat) (bytes : Bytes)
    (found : Option Event × Place) (s : Search) : Prop where
  consumed_eq : s.consumed + offset = consumed + found.2.offset
  stands : s.after.Stands (bytes.drop (s.consumed - consumed)) found.2.remaining ending
  answer : match found.1 with
    | some event => ∃ query, matcher.find? event.message = some query ∧
        s.answer = .ok ⟨event, query⟩
    | none => s.answer = .error ending

/-- A search that starts behind the first record. -/
theorem Finds.skip {matcher : Matcher} {ending : Error} {consumed offset size : Nat}
    {bytes : Bytes} {found : Option Event × Place} {s : Search}
    (hle : offset + size ≤ found.2.offset)
    (h : Finds matcher ending (consumed + size) (offset + size) (bytes.drop size) found s) :
    Finds matcher ending consumed offset bytes found s := by
  have hconsumed := h.consumed_eq
  refine ⟨by omega, ?_, h.answer⟩
  have hstands := h.stands
  have hdrop : size + (s.consumed - (consumed + size)) = s.consumed - consumed := by omega
  rwa [List.drop_drop, hdrop] at hstands

/-- A search passes over the events before the first one that it looks for. -/
theorem findFrom {d : Deserializer} {bytes : Bytes} {events : List Placed} {ending : Error}
    (h : d.Stands bytes events ending) (interval : Interval) (matcher : Matcher)
    (consumed offset counted : Nat) :
    Finds matcher ending consumed offset bytes
      (Place.seek (sought interval matcher) false ⟨events, offset, counted⟩)
      (d.findFrom interval matcher.find? consumed bytes) := by
  induction events generalizing d bytes consumed offset counted with
  | nil =>
    obtain ⟨d', hstep, hending, hrest⟩ := h.step_nil
    rw [Place.seek_nil]
    -- a search that asks for more bytes says so in two ways
    by_cases hincomplete : ending = .incomplete
    · subst hincomplete
      obtain rfl := after_of_step_incomplete hstep
      rw [findFrom_incomplete hstep]
      exact ⟨rfl, by simpa using hrest, Search.answer_incomplete ..⟩
    · rw [findFrom_stop hstep hincomplete]
      exact ⟨rfl, by simpa using hrest, Search.answer_error hending⟩
  | cons placed rest ih =>
    obtain ⟨encoded, hstep, hrender, hrest⟩ := h.step_cons
    -- the rest of the search starts behind the first record
    have hskip (text : Bytes) :=
      (ih (hrest text) (consumed + placed.size) (offset + placed.size) counted).skip
        (Place.le_offset_seek ⟨rest, offset + placed.size, counted⟩)
    by_cases hinterval : interval.contains placed.event.timestamp = true
    · cases hquery : matcher.find? placed.event.message with
      | some query =>
        have hsought : sought interval matcher placed.event = true := by
          simp [sought, hinterval, hquery]
        rw [Place.seek_cons_of_accepts hsought, findFrom_found hstep hinterval hrender hquery]
        refine ⟨?_, ?_, query, hquery, rfl⟩
        · dsimp only
          omega
        · simpa using hrest placed.event.message
      | none =>
        -- in the interval, but no query matches
        have hsought : sought interval matcher placed.event = false := by
          simp [sought, hquery]
        rw [Place.seek_cons_of_not_accepts hsought,
          findFrom_skip hstep hinterval hrender hquery]
        exact hskip placed.event.message
    · -- outside of the interval: the message is not put together
      have hinterval := Bool.eq_false_iff.2 hinterval
      have hsought : sought interval matcher placed.event = false := by
        simp [sought, hinterval]
      rw [Place.seek_cons_of_not_accepts hsought, findFrom_outside hstep hinterval]
      exact hskip d.text

end Stands

/-! ### What such streams are -/

section

variable {d d' : Deserializer} {bytes : Bytes}

/-- What was read is a record whose message can be put together. -/
theorem Live.front_of_next (h : d.Live) {event : Event} {size : Nat}
    (hnext : d.next bytes = (.ok (event, size), d')) :
    ∃ r : Record d.width, Record.front d.width bytes = .event r size ∧
      r.encoded.render = ⟨event.message, none⟩ ∧
      event.timestamp = d.width.eventTime d.running r.time ∧
      d' = (d.withText event.message).commit event.timestamp := by
  unfold next at hnext
  split at hnext
  · cases hnext
  rename_i encoded timestamp size' hstep
  split at hnext
  · cases hnext
  rename_i text hrender
  cases hnext
  simp only [step, h.closed, h.ended, Bool.false_eq_true, if_false] at hstep
  split at hstep
  · rename_i r _ hfront
    cases hstep
    exact ⟨r, hfront, hrender, rfl, rfl⟩
  all_goals cases hstep

/-- Reading ends at the tag of the end, or inside a record. -/
theorem Live.laid_of_next_error (h : d.Live) {ending : Error}
    (hnext : d.next bytes = (.error ending, d'))
    (hending : ending = .endOfStream ∨ ending = .incomplete) :
    Laid d.width d.running bytes [] ending := by
  unfold next at hnext
  split at hnext
  · rename_i hstep
    cases hnext
    simp only [step, h.closed, h.ended, Bool.false_eq_true, if_false] at hstep
    split at hstep
    · cases hstep
    · rename_i hfront
      cases hstep
      obtain ⟨rest, rfl⟩ := Record.front_eq_finish_iff.1 hfront
      exact .finish _ rest
    · cases hstep
      simp at hending
    · rename_i hfront
      cases hstep
      obtain ⟨r, more, hmore, hrecord⟩ := Record.front_eq_incomplete_iff.1 hfront
      exact .cut _ hrecord hmore
  · split at hnext
    · cases hnext
      simp at hending
    · cases hnext

end

/-- The events of a stream of good records are read, and then its end is met. -/
theorem Stands.transcript {d : Deserializer} {bytes : Bytes} {events : List Placed} {ending : Error}
    (h : d.Stands bytes events ending) (offset : Nat) :
    (d.transcript offset bytes).entries.map Entry.event = events.map Placed.event ∧
      (d.transcript offset bytes).error = ending := by
  induction events generalizing d bytes offset with
  | nil =>
    obtain ⟨d', hnext, -⟩ := h.next_nil
    rw [transcript_of_error hnext]
    exact ⟨rfl, rfl⟩
  | cons placed rest ih =>
    obtain ⟨d', hnext, hstands⟩ := h.next_cons
    obtain ⟨hentries, herror⟩ := ih hstands (offset + placed.size)
    rw [transcript_of_ok hnext]
    exact ⟨congrArg (placed.event :: ·) hentries, herror⟩

/-- Reading stops behind the records of the events. -/
theorem Stands.offset_transcript {d : Deserializer} {bytes : Bytes} {events : List Placed}
    {ending : Error} (h : d.Stands bytes events ending) (offset : Nat) :
    (d.transcript offset bytes).offset = offset + Placed.total events := by
  induction events generalizing d bytes offset with
  | nil =>
    obtain ⟨d', hnext, -⟩ := h.next_nil
    rw [transcript_of_error hnext]
    rfl
  | cons placed rest ih =>
    obtain ⟨d', hnext, hstands⟩ := h.next_cons
    rw [transcript_of_ok hnext, Placed.total, List.map_cons, List.sum_cons, ← Nat.add_assoc]
    exact ih hstands (offset + placed.size)

/-- **Streams of good records** are those from which events are read until the
    stream ends or turns out to be cut short. -/
theorem Live.exists_laid_iff {d : Deserializer} (h : d.Live) {ending : Error}
    (hending : ending = .endOfStream ∨ ending = .incomplete) (offset : Nat) (bytes : Bytes) :
    (∃ events, Laid d.width d.running bytes events ending) ↔
      (d.transcript offset bytes).error = ending := by
  constructor
  · rintro ⟨events, hlaid⟩
    exact ((Stands.live h hlaid).transcript offset).2
  · intro herror
    -- along the events that are read
    fun_induction transcript d offset bytes with
    | case1 d offset bytes event size d' hnext ih =>
      obtain ⟨r, hfront, hrender, htime, rfl⟩ := h.front_of_next hnext
      obtain ⟨events, hrest⟩ := ih ⟨h.closed, h.ended⟩ herror
      obtain ⟨record, rest, hrecord, rfl, rfl⟩ := Record.front_eq_event_iff.1 hfront
      rw [List.drop_left] at hrest
      have hrest : Laid d.width event.timestamp rest events ending := hrest
      rw [htime] at hrest
      exact ⟨_, .record hrecord hrender hrest⟩
    | case2 d offset bytes error d' hnext =>
      subst herror
      exact ⟨[], h.laid_of_next_error hnext hending⟩

end Deserializer

end LogCodec
