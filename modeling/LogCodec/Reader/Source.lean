import LogCodec.Contents

/-! # Byte sources

    A source hands out the bytes of a stream piece by piece.  How it does so is
    written down beforehand, as a plan of turns: in each turn it is interrupted
    some number of times and then gives some bytes or fails.  What it does may
    depend on how much room it was offered in this turn and in those before.  A
    turn that gives nothing does not end the source; more bytes may come later.

    - `Source.read`: one read.
    - `Source.drain`: what comes of reading to the end.
    - `Source.planFrom`: the plan of a source that keeps a state. -/

namespace LogCodec

/-- What a source does at last in one turn. -/
inductive Source.Answer where
  /-- It gives at most so many bytes. -/
  | give (limit : Nat)
  /-- It fails. -/
  | fail (reason : String)
deriving DecidableEq

/-- One turn of a source. -/
structure Source.Turn where
  /-- How often a read is interrupted before it is answered. -/
  interrupts : Nat
  answer : Source.Answer
deriving DecidableEq

/-- A source of bytes. -/
structure Source where
  /-- The bytes not yet given. -/
  data : Bytes
  /-- What happens in a turn, by the rooms that were offered in it and in the
      turns before it, the latest one first. -/
  plan : List Nat → Source.Turn
  /-- The rooms that were offered so far, the latest one first. -/
  offered : List Nat
  /-- How reading fails once all bytes were given, if it does. -/
  ending : Option String

namespace Source

/-! ### Reading -/

/-- The answer to a read, interruptions left out. -/
inductive Reply where
  /-- These bytes, none of them at the end. -/
  | gave (bytes : Bytes)
  | failed (reason : String)

/-- Reads at most `room` bytes.  Gives the answer, how many calls it took, and
    the source after them. -/
def read (s : Source) (room : Nat) : Reply × Nat × Source :=
  let turn := s.plan (room :: s.offered)
  let calls := turn.interrupts + 1
  let after := { s with offered := room :: s.offered }
  match turn.answer with
  | .fail reason => (.failed reason, calls, after)
  | .give limit =>
    match s.data, s.ending with
    | [], some reason => (.failed reason, calls, after)
    | data, _ =>
      let size := min limit room
      (.gave (data.take size), calls, { after with data := data.drop size })

/-- The bytes that are given are the next ones. -/
theorem data_of_read_gave {s s' : Source} {room calls : Nat} {bytes : Bytes}
    (h : s.read room = (.gave bytes, calls, s')) : s.data = bytes ++ s'.data := by
  unfold read at h
  simp only at h
  split at h
  · simp at h
  · split at h
    · simp at h
    · simp only [Prod.mk.injEq, Reply.gave.injEq] at h
      obtain ⟨rfl, -, rfl⟩ := h
      exact (List.take_append_drop ..).symm

/-- No more bytes are given than there is room for. -/
theorem length_of_read_gave {s s' : Source} {room calls : Nat} {bytes : Bytes}
    (h : s.read room = (.gave bytes, calls, s')) : bytes.length ≤ room := by
  unfold read at h
  simp only at h
  split at h
  · simp at h
  · split at h
    · simp at h
    · simp only [Prod.mk.injEq, Reply.gave.injEq] at h
      obtain ⟨rfl, -, -⟩ := h
      rw [List.length_take]
      omega

/-- What comes of reading with the same room until nothing is given, after these
    pieces, the last one first. -/
def drainFrom (room : Nat) (pieces : List Bytes) (s : Source) : Contents :=
  match _h : s.read room with
  | (.failed reason, _, _) => ⟨pieces.reverse.flatten, some reason⟩
  | (.gave [], _, _) => ⟨pieces.reverse.flatten, none⟩
  | (.gave (b :: rest), _, after) => drainFrom room ((b :: rest) :: pieces) after
termination_by s.data.length
decreasing_by
  have := congrArg List.length (data_of_read_gave _h)
  simp only [List.length_append, List.length_cons] at this
  omega

/-- What comes of reading with the same room until nothing is given. -/
def drain (room : Nat) (s : Source) : Contents := drainFrom room [] s

/-! ### Plans that keep a state -/

section

variable {σ : Type} (step : σ → Nat → Turn × σ) (start : σ)

/-- The state after these rooms were offered, the latest one first. -/
def stateAfter (offered : List Nat) : σ := offered.foldr (fun room s => (step s room).2) start

/-- The plan of a source that starts in a state and steps from state to state. -/
def planFrom : List Nat → Turn
  | [] => ⟨0, .give 0⟩
  | room :: earlier => (step (stateAfter step start earlier) room).1

end

end Source

end LogCodec
