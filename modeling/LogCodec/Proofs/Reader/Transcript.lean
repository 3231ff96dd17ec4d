import LogCodec.Proofs.Reader.Answers
import LogCodec.Proofs.Stream.Transcript

/-! # Chunks do not matter

    A reader and a deserializer give the same transcript of the same bytes.
    The deserializer has all bytes at once; the reader gets them in chunks,
    with interruptions, through a buffer of any capacity.

    - `Reader.transcript`, `Reader.session`: what comes of reading events until
      there are no more.
    - `Reader.session_alike`: it is what comes of deserializing all bytes. -/

namespace LogCodec.Reader

/-! ### Transcripts of readers -/

theorem outcome_error {α : Type} {error : Error} (h : error ≠ .endOfStream) :
    outcome (.error error) = (.failed error : Outcome Error α) := by
  cases error with
  | endOfStream => exact absurd rfl h
  | _ => rfl

/-- An event that was read uses bytes of the stream. -/
theorem ahead_of_readEvent {r r' : Reader} {event : Event} (h : r.readEvent = (.found event, r')) :
    r'.ahead < r.ahead := by
  cases hn : r.next with
  | mk result r'' =>
    rw [readEvent, hn] at h
    simp only [Prod.mk.injEq] at h
    obtain ⟨hresult, rfl⟩ := h
    cases result with
    | ok event' => exact ahead_of_next hn
    | error error => cases error <;> simp [outcome] at hresult

/-- Reads events until there are no more. -/
def transcript (r : Reader) : Transcript :=
  match _h : r.readEvent with
  | (.found event, r') =>
    r'.transcript.cons ⟨event, r'.deserializer.runningTimestamp?, r'.window.streamOffset⟩
  | (.done, r') => ⟨[], .endOfStream, r'.window.streamOffset⟩
  | (.failed error, r') => ⟨[], error, r'.window.streamOffset⟩
termination_by r.ahead
decreasing_by exact ahead_of_readEvent _h

/-- Reads the preamble and then events. -/
def session (source : Source) (capacity : Nat) : Result Session :=
  (Reader.open source capacity).map fun r =>
    ⟨r.deserializer.width, r.deserializer.info, r.deserializer.runningTimestamp?,
      r.window.streamOffset, r.transcript⟩

section

variable {r r' : Reader}

theorem transcript_of_ok {event : Event} (h : r.next = (.ok event, r')) :
    r.transcript =
      r'.transcript.cons ⟨event, r'.deserializer.runningTimestamp?, r'.window.streamOffset⟩ := by
  have hread : r.readEvent = (.found event, r') := by
    rw [readEvent, h]
    rfl
  rw [transcript]
  split <;> simp_all

theorem transcript_of_error {error : Error} (h : r.next = (.error error, r')) :
    r.transcript = ⟨[], error, r'.window.streamOffset⟩ := by
  have hread : r.readEvent = (outcome (.error error), r') := by rw [readEvent, h]
  rw [transcript]
  by_cases hend : error = .endOfStream
  · have hdone : outcome (.error error) = (.done : Outcome Error Event) := by
      rw [hend]
      rfl
    rw [hdone] at hread
    split <;> simp_all
  · rw [outcome_error hend] at hread
    split <;> simp_all

end

/-! ### Equal transcripts -/

/-- From any place on, a reader and its deserializer give the same transcript. -/
theorem transcript_eq {r : Reader} (h : r.source.SteadyToEnd) :
    r.transcript = r.deserializer.transcript r.window.streamOffset r.pending := by
  -- each event uses some of the pending bytes
  induction hn : r.pending.length using Nat.strongRecOn generalizing r with
  | ind n ih =>
    have hanswers := next_answers h
    cases hsaid : r.deserializer.next r.pending with
    | mk result d =>
      rw [hsaid] at hanswers
      cases result with
      | ok found =>
        obtain ⟨event, size⟩ := found
        obtain ⟨hok, hadvances, -⟩ := hanswers
        have hsize := Deserializer.size_of_next hsaid
        have hless : r.next.2.pending.length < n := by
          rw [hadvances.pending, List.length_drop]
          omega
        rw [transcript_of_ok (Prod.ext hok rfl), Deserializer.transcript_of_ok hsaid,
          ih _ hless (hadvances.steady h) rfl, hadvances.deserializer, hadvances.offset,
          hadvances.pending]
      | error error =>
        obtain ⟨herror, hadvances, -⟩ := hanswers
        rw [transcript_of_error (Prod.ext herror rfl), Deserializer.transcript_of_error hsaid,
          hadvances.offset, Nat.add_zero]

/-- **Chunks do not matter.**  Whatever the bytes of a stream are, reading them
    from a steady source through a buffer of any capacity comes to the same as
    deserializing them all at once: the same preamble, the same events with the
    same running timestamps at the same places, and the same end.  Only the
    bytes that are reported in place of the magic number may be fewer. -/
theorem session_alike {source : Source} (h : source.Steady) (capacity : Nat) :
    Result.Alike (session source capacity) (Deserializer.session source.data) := by
  have hopen := open_answers h capacity
  unfold session Deserializer.session
  cases hsaid : Deserializer.ofBytes source.data with
  | ok found =>
    obtain ⟨d, size⟩ := found
    rw [hsaid] at hopen
    obtain ⟨r, hr, hopened⟩ := hopen
    rw [hr]
    simp only [Except.map, transcript_eq hopened.steady, hopened.deserializer, hopened.pending,
      hopened.offset, Nat.zero_add]
    exact .refl _
  | error error =>
    rw [hsaid] at hopen
    obtain ⟨error', hr, hmagic⟩ := hopen
    rw [hr]
    exact Result.alike_error_iff.2 ⟨error', rfl, hmagic⟩

/-- A stream that is cut short inside its first record, read one byte at a time. -/
theorem session_alike_bytewise :
    Result.Alike
      (session (.inChunks 1 [0xFD, 0x2F, 0xB5, 0x29, 8, 1, 0, 2, 0x7B, 0x7D, 1, 0, 0]) 16)
      (Deserializer.session [0xFD, 0x2F, 0xB5, 0x29, 8, 1, 0, 2, 0x7B, 0x7D, 1, 0, 0]) :=
  session_alike (Source.steady_inChunks (by decide) _) 16

end LogCodec.Reader
