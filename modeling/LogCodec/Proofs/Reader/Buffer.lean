import LogCodec.Proofs.Reader.Pending
import LogCodec.Reader.Buffer

/-! # Files are steady sources

    A source that keeps a state gives all its bytes when some count goes with the
    state: the count of the bytes that are left.  For a file that is read through a
    buffer these are the bytes that the buffer holds and those that were not read.

    - `Source.steadyToEnd_planFrom`: for any such source.
    - `Source.steadyToEnd_ofContents`: for a file.
    - `Source.drain_of_toEnd`: what comes of reading such a source to its end. -/

namespace LogCodec

namespace Source

section

variable {σ : Type} {step : σ → Nat → Turn × σ} {start : σ} {Left : σ → Nat → Prop}

/-- The steps of a source go with the count of the bytes that are left: as long as
    there are any, each gives one at least, and no more than there is room for. -/
def Counts (step : σ → Nat → Turn × σ) (Left : σ → Nat → Prop) : Prop :=
  ∀ (state : σ) (left room : Nat), Left state left → 0 < room →
    ∃ size, (step state room).1.answer = .give size ∧ size ≤ room ∧ (size = 0 → left = 0) ∧
      Left (step state room).2 (left - size)

theorem steadyToEnd_planFrom (hcounts : Counts step Left) {data : Bytes}
    (h : Left start data.length) :
    SteadyToEnd ⟨data, planFrom step start, [], none⟩ := by
  -- the count goes with the state that the rooms offered so far have led to
  let Kept : Source → Prop := fun s => s.plan = planFrom step start ∧ s.ending = none ∧
    Left (stateAfter step start s.offered) s.data.length
  have hread : ∀ s room, Kept s → 0 < room → ∃ size,
      s.read room = (.gave (s.data.take size), (s.plan (room :: s.offered)).interrupts + 1,
        { s with offered := room :: s.offered, data := s.data.drop size }) ∧
      (size = 0 → s.data.length = 0) ∧
      Left (stateAfter step start (room :: s.offered)) (s.data.length - size) := by
    intro s room hkept hroom
    obtain ⟨hplan, hending, hleft⟩ := hkept
    obtain ⟨size, hanswer, hsize, hzero, hafter⟩ := hcounts _ _ room hleft hroom
    have hturn : (s.plan (room :: s.offered)).answer = .give size := by
      rw [hplan]
      exact hanswer
    have hgave := read_of_give hturn hending
    rw [Nat.min_eq_left hsize] at hgave
    exact ⟨size, hgave, hzero, hafter⟩
  apply steadyToEnd_of_invariant (I := Kept)
  · intro s hkept room hroom
    obtain ⟨size, hgave, hzero, -⟩ := hread s room hkept hroom
    refine ⟨_, _, _, hgave, ?_⟩
    intro hnil
    rcases List.take_eq_nil_iff.1 hnil with hsize | hdata
    · exact List.length_eq_zero_iff.1 (hzero hsize)
    · exact hdata
  · intro s room hkept hroom
    obtain ⟨size, hgave, -, hafter⟩ := hread s room hkept hroom
    rw [hgave]
    refine ⟨hkept.1, hkept.2.1, ?_⟩
    rw [List.length_drop]
    exact hafter
  · exact ⟨rfl, rfl, h⟩

end

/-- **Reading to the end** gives all bytes. -/
theorem drainFrom_of_toEnd {s : Source} (h : s.SteadyToEnd) {room : Nat} (hroom : 0 < room)
    (pieces : List Bytes) :
    s.drainFrom room pieces = .ofBytes (pieces.reverse.flatten ++ s.data) := by
  fun_induction drainFrom room pieces s with
  | case1 pieces s reason calls after hread =>
    obtain ⟨bytes, calls, s', hgave, -⟩ := h.gives room hroom
    rw [hread] at hgave
    cases hgave
  | case2 pieces s calls after hread =>
    -- nothing was given, so that nothing was left
    obtain ⟨bytes, calls, s', hgave, hnil⟩ := h.gives room hroom
    rw [hread] at hgave
    cases hgave
    rw [hnil rfl, List.append_nil]
    rfl
  | case3 pieces s b rest calls after hread ih =>
    have hafter := h.read hroom
    rw [hread] at hafter
    rw [ih hafter, data_of_read_gave hread, List.reverse_cons, List.flatten_append,
      List.flatten_singleton, List.append_assoc]

theorem drain_of_toEnd {s : Source} (h : s.SteadyToEnd) {room : Nat} (hroom : 0 < room) :
    s.drain room = .ofBytes s.data :=
  drainFrom_of_toEnd h hroom []

end Source

/-! ### Buffered files -/

namespace FileBuffer

/-- So many bytes of the file are left, in the buffer or behind it. -/
def Left (b : FileBuffer) (left : Nat) : Prop := b.held + b.left = left

/-- Giving from a buffer that holds something, or that has nothing to hold. -/
theorem give_counts {b : FileBuffer} {left room : Nat} (h : b.Left left) (hroom : 0 < room)
    (hheld : b.held = 0 → b.left = 0) :
    ∃ size, (b.give room).1.answer = .give size ∧ size ≤ room ∧ (size = 0 → left = 0) ∧
      (b.give room).2.Left (left - size) := by
  unfold Left at h
  refine ⟨min b.held room, rfl, Nat.min_le_right .., ?_, ?_⟩
  · omega
  · show b.held - min b.held room + b.left = left - min b.held room
    omega

theorem counts_step : Source.Counts step Left := by
  intro b left room h hroom
  unfold step
  split
  · exact give_counts h hroom (by omega)
  split
  · -- the buffer was empty, and a block is read into it
    have hblock : 0 < blockSize := by decide
    unfold Left at h
    apply give_counts _ hroom
    · intro hzero
      show b.left - min b.left blockSize = 0
      have : min b.left blockSize = 0 := hzero
      omega
    · show min b.left blockSize + (b.left - min b.left blockSize) = left
      omega
  · -- the file is read past the buffer
    unfold Left at h
    refine ⟨min b.left room, rfl, Nat.min_le_right .., ?_, ?_⟩
    · omega
    · show b.held + (b.left - min b.left room) = left - min b.left room
      omega

end FileBuffer

/-- **A file is a steady source.** -/
theorem Source.steadyToEnd_ofContents (data : Bytes) :
    (Source.ofContents (.ofBytes data)).SteadyToEnd := by
  apply steadyToEnd_planFrom FileBuffer.counts_step
  show 0 + data.length = data.length
  omega

end LogCodec
