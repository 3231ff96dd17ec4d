import LogCodec.Proofs.Reader.Requests
import LogCodec.Proofs.Reader.Transcript
import LogCodec.Proofs.Stream.Framed

/-! # All events, and all matches

    Reading all events comes to the transcript of the reader.  When all records can be
    decoded, whatever ends the stream, searching comes to the same with the events
    left out that are not looked for: it ends at the same place for the same reason.

    - `Reader.allEvents_eq`: reading all events.
    - `Record.Decodable`: all records in front of the first fault can be decoded.
    - `Deserializer.Live.exists_stands`: what is read of such bytes.
    - `Reader.At.collectFrom_nextMatch`: searching them. -/

namespace LogCodec

namespace Reader

/-! ### Collecting -/

section

variable {α : Type} {read : Reader → Result α × Reader} {productive : Productive read}
  {items : List α} {r r' : Reader}

theorem collectFrom_of_ok {item : α} (h : read r = (.ok item, r')) :
    collectFrom read productive items r = collectFrom read productive (item :: items) r' := by
  fun_cases collectFrom read productive items r with
  | case1 item' r'' hread =>
    rw [h] at hread
    cases hread
    rfl
  | case2 error r'' hread =>
    rw [h] at hread
    cases hread

theorem collectFrom_of_error {error : Error} (h : read r = (.error error, r')) :
    collectFrom read productive items r = ⟨items.reverse, error, r'⟩ := by
  fun_cases collectFrom read productive items r with
  | case1 item r'' hread =>
    rw [h] at hread
    cases hread
  | case2 error' r'' hread =>
    rw [h] at hread
    cases hread
    rfl

end

/-! ### All events -/

theorem collectFrom_next (items : List Event) (r : Reader) :
    (collectFrom next productive_next items r).items =
        items.reverse ++ r.transcript.entries.map Entry.event ∧
      (collectFrom next productive_next items r).error = r.transcript.error ∧
      (collectFrom next productive_next items r).reader.window.streamOffset =
        r.transcript.offset := by
  induction hahead : r.ahead using Nat.strongRecOn generalizing items r with
  | ind n ih =>
    cases hnext : r.next with
    | mk result r' =>
      cases result with
      | error error =>
        rw [collectFrom_of_error hnext, transcript_of_error hnext]
        exact ⟨(List.append_nil _).symm, rfl, rfl⟩
      | ok event =>
        have hless : r'.ahead < n := hahead ▸ ahead_of_next hnext
        obtain ⟨hitems, herror, hoffset⟩ := ih _ hless (event :: items) r' rfl
        rw [collectFrom_of_ok hnext, transcript_of_ok hnext]
        refine ⟨?_, herror, hoffset⟩
        rw [hitems, List.reverse_cons, List.append_assoc]
        rfl

/-- **All events** are those of the transcript. -/
theorem allEvents_eq (r : Reader) :
    r.allEvents.items = r.transcript.entries.map Entry.event ∧
      r.allEvents.error = r.transcript.error ∧
      r.allEvents.reader.window.streamOffset = r.transcript.offset :=
  collectFrom_next [] r

/-! ### All matches -/

/-- Searching from a place on. -/
theorem At.collectFrom_nextMatch {ending : Error} {place : Place} {r : Reader}
    (h : At ending place r) (interval : Interval) (matcher : Matcher) (items : List Match) :
    (collectFrom _ (productive_nextMatch interval matcher) items r).items.map Match.event =
        items.reverse.map Match.event ++ (place.remaining.map Placed.event).filter
          (Deserializer.Stands.sought interval matcher) ∧
      (collectFrom _ (productive_nextMatch interval matcher) items r).error = ending ∧
      (collectFrom _ (productive_nextMatch interval matcher) items r).reader.window.streamOffset =
        place.offset + Placed.total place.remaining := by
  induction hleft : place.remaining.length using Nat.strongRecOn generalizing items place r with
  | ind n ih =>
    obtain ⟨r', hat, hanswer⟩ := h.nextMatch interval matcher
    obtain ⟨hfilter, hoffset⟩ :=
      @Place.filter_seek (Deserializer.Stands.sought interval matcher) false place
    have hremaining :=
      @Place.remaining_seek (Deserializer.Stands.sought interval matcher) false place
    rw [hfilter, ← hoffset]
    cases hfound : (place.seek (Deserializer.Stands.sought interval matcher) false).1 with
    | some event =>
      rw [hfound] at hanswer hremaining
      obtain ⟨query, -, hmatch⟩ := hanswer
      obtain ⟨hitems, herror, hend⟩ := ih _ (hleft ▸ hremaining) hat (⟨event, query⟩ :: items) rfl
      rw [collectFrom_of_ok hmatch]
      refine ⟨?_, herror, hend⟩
      rw [hitems, List.reverse_cons, List.map_append, List.append_assoc]
      rfl
    | none =>
      -- nothing that is looked for is left
      rw [hfound] at hanswer hremaining
      rw [hremaining, collectFrom_of_error hanswer]
      refine ⟨(List.append_nil _).symm, rfl, ?_⟩
      rw [hat.offset]
      rfl

end Reader

/-! ### Records that can be decoded -/

/-- Every complete record of these bytes with nothing but complete records in front of it
    holds a message that can be put together. -/
def Record.Decodable (w : Width) (bytes : Bytes) : Prop :=
  ∀ (records : List Bytes) (r : Record w) (record rest : Bytes),
    (∀ x ∈ records, Framed w x) → r.toBytes = .ok record →
    bytes = records.flatten ++ (record ++ rest) → ∃ message, r.encoded.decode = .ok message

/-- The bytes behind the first record. -/
theorem Record.Decodable.rest {w : Width} {record rest : Bytes} (h : Decodable w (record ++ rest))
    (hframed : Framed w record) : Decodable w rest := by
  intro records r record' rest' hrecords hrecord hrest
  apply h (record :: records) r record' rest' _ hrecord
  · rw [hrest, List.flatten_cons, List.append_assoc]
  · intro x hx
    rcases List.mem_cons.1 hx with rfl | hx
    · exact hframed
    · exact hrecords x hx

/-- One more record in front. -/
theorem Record.Decodable.cons {w : Width} {r : Record w} {record message : Bytes}
    (hrecord : r.toBytes = .ok record) (hmessage : r.encoded.decode = .ok message) {rest : Bytes}
    (hrest : Decodable w rest) : Decodable w (record ++ rest) := by
  have hframed : Framed w record := framed_iff.2 ⟨r, hrecord⟩
  intro records r' record' rest' hrecords hrecord' heq
  cases records with
  | nil =>
    rw [List.flatten_nil, List.nil_append] at heq
    rw [← hframed.unique (framed_iff.2 ⟨r', hrecord'⟩) heq] at hrecord'
    rw [← eq_of_toBytes_eq hrecord hrecord']
    exact ⟨message, hmessage⟩
  | cons first others =>
    rw [List.flatten_cons, List.append_assoc] at heq
    have hsame := hframed.unique (hrecords first (List.mem_cons_self ..)) heq
    rw [← hsame, List.append_cancel_left_eq] at heq
    apply hrest others r' record' rest' _ hrecord' heq
    intro x hx
    exact hrecords x (List.mem_cons_of_mem _ hx)

/-- No complete record is at the front. -/
theorem Record.decodable_of_front {w : Width} {bytes : Bytes}
    (h : ∀ r size, front w bytes ≠ .event r size) : Decodable w bytes := by
  intro records r record rest hrecords hrecord heq
  have hfirst : ∃ first others, Framed w first ∧ bytes = first ++ others := by
    cases records with
    | nil => exact ⟨record, rest, framed_iff.2 ⟨r, hrecord⟩, heq⟩
    | cons first others =>
      rw [List.flatten_cons, List.append_assoc] at heq
      exact ⟨first, _, hrecords first (List.mem_cons_self ..), heq⟩
  obtain ⟨first, others, hframed, hbytes⟩ := hfirst
  obtain ⟨r, hfront⟩ := hframed.front_append others
  rw [hbytes] at h
  exact absurd hfront (h _ _)

theorem Encoded.render_of_decode {w : Width} {e : Encoded w} {message : Bytes}
    (h : e.decode = .ok message) : e.render = ⟨message, none⟩ := by
  unfold decode at h
  split at h
  case h_1 hrender =>
    cases h
    exact hrender
  case h_2 => cases h

namespace Deserializer

/-- What stands at the front of some bytes does not depend on the message that was
    written last. -/
theorem step_withText (d : Deserializer) (text bytes : Bytes) :
    (d.withText text).step bytes =
      match d.step bytes with
      | .event encoded timestamp size => .event encoded timestamp size
      | .stop error after => .stop error (after.withText text) := by
  obtain ⟨width, info, running, text', timestamp, ended, closed⟩ := d
  cases closed with
  | true => rfl
  | false =>
    cases ended with
    | true => rfl
    | false =>
      simp only [step, withText, Bool.false_eq_true, if_false]
      cases Record.front width bytes <;> rfl

theorem Stands.withText {d : Deserializer} {bytes : Bytes} {events : List Placed} {ending : Error}
    (h : d.Stands bytes events ending) (text : Bytes) :
    (d.withText text).Stands bytes events ending := by
  cases h with
  | @stop _ d' _ _ hstep hagain hending =>
    have hstep' := d.step_withText text bytes
    rw [hstep] at hstep'
    have hagain' := d'.step_withText text bytes
    rw [hagain] at hagain'
    exact .stop hstep' hagain' hending
  | further hstep hrender hrest =>
    have hstep' := d.step_withText text bytes
    rw [hstep] at hstep'
    exact .further hstep' hrender hrest

/-- From bytes all of whose records can be decoded events are read, up to the end of the
    stream or to a fault of its frame. -/
theorem Live.exists_stands {d : Deserializer} {bytes : Bytes} (h : d.Live)
    (hdecodable : Record.Decodable d.width bytes) :
    ∃ events ending, d.Stands bytes events ending := by
  induction hlength : bytes.length using Nat.strongRecOn generalizing d bytes with
  | ind n ih =>
    cases hfront : Record.front d.width bytes with
    | finish =>
      obtain ⟨rest, rfl⟩ := Record.front_eq_finish_iff.1 hfront
      exact ⟨[], _, .live h (.finish _ rest)⟩
    | incomplete =>
      obtain ⟨r, more, hmore, hrecord⟩ := Record.front_eq_incomplete_iff.1 hfront
      exact ⟨[], _, .live h (.cut _ hrecord hmore)⟩
    | unknown tag =>
      have hstep : d.step bytes = .stop (.corrupted (.unknownTag tag)) d := by
        simp [step, h.closed, h.ended, hfront]
      exact ⟨[], _, .stop hstep hstep (by simp)⟩
    | event r size =>
      obtain ⟨hpos, -⟩ := Record.size_of_front_event hfront
      obtain ⟨record, rest, hrecord, rfl, rfl⟩ := Record.front_eq_event_iff.1 hfront
      obtain ⟨message, hmessage⟩ := hdecodable [] r record rest
        (fun x hx => absurd hx List.not_mem_nil) hrecord rfl
      rw [List.length_append] at hlength
      have hstep := step_toBytes_append h hrecord rest
      obtain ⟨events, ending, hrest⟩ := ih rest.length (by omega)
        (d := d.commit (d.width.eventTime d.running r.time)) ⟨h.closed, h.ended⟩
        (hdecodable.rest (Record.framed_iff.2 ⟨r, hrecord⟩)) rfl
      refine ⟨⟨⟨message, d.width.eventTime d.running r.time⟩, record.length⟩ :: events, ending,
        .further hstep (Encoded.render_of_decode hmessage) ?_⟩
      intro text
      rw [List.drop_left]
      exact hrest.withText text

end Deserializer

end LogCodec
