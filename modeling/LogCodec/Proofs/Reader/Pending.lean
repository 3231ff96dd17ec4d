import LogCodec.Reader.Basic
import Mathlib.Tactic.Common

/-! # What a reader still has to read

    The bytes that are pending are those of the window and those that the
    source has not given yet.  Moving bytes from the source to the window, and
    the window within its buffer, does not change them.

    * `Source.Steady`: the source gives all its bytes, in any chunks.
    * `Source.SteadyToEnd`: the same for a source that may give nothing more at its
      end.
    * `Window.Refills`: what filling the window does not change.
    * `Reader.Advances`: the reader used some of the pending bytes, and nothing
      else is lost. -/

namespace LogCodec

/-! ### Sources -/

namespace Source

/-- The source gives at least one byte whenever there is room for one, until all
    were given, and then nothing.  It may interrupt reads as often as it likes,
    and choose the chunks by what it was offered before. -/
structure Steady (s : Source) : Prop where
  gives : ∀ (room : Nat) (earlier : List Nat), 0 < room →
    ∃ limit, 0 < limit ∧ (s.plan (room :: earlier)).answer = .give limit
  ending : s.ending = none

theorem Steady.of_eq {s s' : Source} (h : s.Steady) (hplan : s'.plan = s.plan)
    (hending : s'.ending = s.ending) : s'.Steady :=
  ⟨fun room earlier => by rw [hplan]; exact h.gives room earlier, by rw [hending, h.ending]⟩

/-- The source that gives these bytes in chunks of one size, and interrupts every
    read once. -/
def inChunks (size : Nat) (data : Bytes) : Source where
  data := data
  plan := fun _ => ⟨1, .give size⟩
  offered := []
  ending := none

theorem steady_inChunks {size : Nat} (h : 0 < size) (data : Bytes) : (inChunks size data).Steady :=
  ⟨fun _ _ _ => ⟨size, h, rfl⟩, rfl⟩

/-- A read gives a byte if there is room for one and any is left. -/
def Gives (s : Source) : Prop :=
  ∀ room, 0 < room →
    ∃ bytes calls s', s.read room = (.gave bytes, calls, s') ∧ (bytes = [] → s.data = [])

/-- The source after reads with these rooms. -/
def after (s : Source) : (rooms : List Nat) → Source
  | [] => s
  | room :: rooms => (s.read room).2.2.after rooms

/-- Whatever was read before, the source gives more as long as there is more, and
    never fails.  What it does may depend on how much it has left. -/
def SteadyToEnd (s : Source) : Prop :=
  ∀ rooms : List Nat, (∀ room ∈ rooms, 0 < room) → (s.after rooms).Gives

/-- A read moves bytes out of the source, and changes nothing but what was
    offered. -/
theorem read_eq (s : Source) (room : Nat) :
    (s.read room).2.2.plan = s.plan ∧ (s.read room).2.2.ending = s.ending := by
  unfold read
  dsimp only
  split
  · exact ⟨rfl, rfl⟩
  · split <;> exact ⟨rfl, rfl⟩

/-- A failed read moves nothing. -/
theorem data_of_read_failed {s s' : Source} {room calls : Nat} {reason : String}
    (h : s.read room = (.failed reason, calls, s')) : s'.data = s.data := by
  unfold read at h
  dsimp only at h
  split at h
  · cases h
    rfl
  · split at h <;> cases h
    rfl

/-- What a read does in a turn that gives bytes. -/
theorem read_of_give {s : Source} {room limit : Nat}
    (hanswer : (s.plan (room :: s.offered)).answer = .give limit) (hending : s.ending = none) :
    s.read room = (.gave (s.data.take (min limit room)),
      (s.plan (room :: s.offered)).interrupts + 1,
      { s with offered := room :: s.offered, data := s.data.drop (min limit room) }) := by
  simp only [read, hanswer, hending]
  split
  · -- no failure is left for the end
    simp_all
  · rfl

/-- A steady source does not fail, and gives nothing only at its end. -/
theorem Steady.gives_read {s : Source} (h : s.Steady) : s.Gives := by
  intro room hroom
  obtain ⟨limit, hlimit, hanswer⟩ := h.gives room s.offered hroom
  refine ⟨_, _, _, read_of_give hanswer h.ending, fun hnil => ?_⟩
  rcases List.take_eq_nil_iff.1 hnil with hzero | hdata
  · omega
  · exact hdata

/-- A source is steady to its end when something holds of it that every read keeps
    and that makes it give. -/
theorem steadyToEnd_of_invariant {I : Source → Prop} (hgives : ∀ s, I s → s.Gives)
    (hread : ∀ s room, I s → 0 < room → I (s.read room).2.2) {s : Source} (h : I s) :
    s.SteadyToEnd := by
  intro rooms hrooms
  induction rooms generalizing s with
  | nil => exact hgives s h
  | cons room rooms ih =>
    have hroom := hrooms room (List.mem_cons_self ..)
    exact ih (hread s room h hroom) fun r hr => hrooms r (List.mem_cons_of_mem _ hr)

theorem Steady.toEnd {s : Source} (h : s.Steady) : s.SteadyToEnd := by
  apply steadyToEnd_of_invariant (I := Steady) (fun s hs => hs.gives_read) _ h
  intro s room hs _
  obtain ⟨hplan, hending⟩ := s.read_eq room
  exact hs.of_eq hplan hending

theorem SteadyToEnd.gives {s : Source} (h : s.SteadyToEnd) : s.Gives :=
  h [] fun _ hroom => absurd hroom List.not_mem_nil

/-- A read leaves a source that is steady to its end. -/
theorem SteadyToEnd.read {s : Source} (h : s.SteadyToEnd) {room : Nat} (hroom : 0 < room) :
    (s.read room).2.2.SteadyToEnd := by
  intro rooms hrooms
  apply h (room :: rooms)
  intro r hr
  rcases List.mem_cons.1 hr with rfl | hr
  · exact hroom
  · exact hrooms r hr

end Source

/-! ### Filling the window -/

namespace Window

section

variable {w : Window} {source source' : Source} {calls : Nat}

theorem fill_of_gave {bytes : Bytes}
    (h : source.read w.makeRoom.room = (.gave bytes, calls, source')) :
    w.fill source = (if bytes = [] then .exhausted else .more,
      (w.makeRoom.append bytes (Source.length_of_read_gave h)).countReads calls, source') := by
  simp only [fill]
  split <;> rename_i hr <;> rw [h] at hr <;> cases hr
  rfl

theorem fill_of_failed {reason : String}
    (h : source.read w.makeRoom.room = (.failed reason, calls, source')) :
    w.fill source = (.failed reason, w.makeRoom.countReads calls, source') := by
  simp only [fill]
  split <;> rename_i hr <;> rw [h] at hr <;> cases hr
  rfl

end

/-- What filling does not change: the bytes of the window and the source
    together, the place in the stream, and that the source is steady. -/
structure Refills (w : Window) (source : Source) (w' : Window) (source' : Source) : Prop where
  bytes : w'.bytes ++ source'.data = w.bytes ++ source.data
  offset : w'.streamOffset = w.streamOffset
  steady : source.SteadyToEnd → source'.SteadyToEnd

/-- There is room for a read. -/
theorem room_makeRoom_pos (w : Window) : 0 < w.makeRoom.room :=
  Nat.lt_of_lt_of_le (by decide) (lowWater_le_room_makeRoom w)

theorem refills_of_fill {w w' : Window} {source source' : Source} {filled : Filled}
    (h : w.fill source = (filled, w', source')) : w.Refills source w' source' := by
  have hsteady (hs : source.SteadyToEnd) := hs.read w.room_makeRoom_pos
  cases hr : source.read w.makeRoom.room with
  | mk reply rest =>
    obtain ⟨calls, source''⟩ := rest
    rw [hr] at hsteady
    cases reply with
    | gave bytes =>
      rw [fill_of_gave hr] at h
      cases h
      refine ⟨?_, streamOffset_makeRoom w, hsteady⟩
      show (w.makeRoom.append bytes (Source.length_of_read_gave hr)).bytes ++ _ = _
      rw [bytes_append, bytes_makeRoom, Source.data_of_read_gave hr, List.append_assoc]
    | failed reason =>
      rw [fill_of_failed hr] at h
      cases h
      refine ⟨?_, streamOffset_makeRoom w, hsteady⟩
      show w.makeRoom.bytes ++ _ = _
      rw [bytes_makeRoom, Source.data_of_read_failed hr]

section

variable {w w' : Window} {source source' : Source} (hsteady : source.SteadyToEnd)

include hsteady

/-- A steady source gives something, or has given all its bytes. -/
theorem fill_of_steady {filled : Filled} (h : w.fill source = (filled, w', source')) :
    filled = .more ∨ filled = .exhausted ∧ source.data = [] := by
  obtain ⟨bytes, calls, s', hr, hnil⟩ := hsteady.gives _ w.room_makeRoom_pos
  rw [fill_of_gave hr] at h
  cases h
  by_cases hbytes : bytes = []
  · exact .inr ⟨if_pos hbytes, hnil hbytes⟩
  · exact .inl (if_neg hbytes)

theorem not_failed_of_steady {reason : String} (h : w.fill source = (.failed reason, w', source')) :
    False := by
  rcases fill_of_steady hsteady h with hmore | ⟨hexhausted, -⟩
  · cases hmore
  · cases hexhausted

theorem data_of_fill_exhausted (h : w.fill source = (.exhausted, w', source')) :
    source.data = [] := by
  rcases fill_of_steady hsteady h with hmore | ⟨-, hdata⟩
  · cases hmore
  · exact hdata

end

end Window

/-! ### Readers -/

namespace Reader

/-- The bytes that are still to be used. -/
def pending (r : Reader) : Bytes := r.window.bytes ++ r.source.data

/-- The reader used so many of the pending bytes, and its deserializer became
    this one. -/
structure Advances (r : Reader) (size : Nat) (d : Deserializer) (r' : Reader) : Prop where
  deserializer : r'.deserializer = d
  pending : r'.pending = r.pending.drop size
  offset : r'.window.streamOffset = r.window.streamOffset + size
  steady : r.source.SteadyToEnd → r'.source.SteadyToEnd

section

variable {r r' r'' : Reader} {d d' : Deserializer} {m n : Nat}

theorem Advances.trans (h : r.Advances m d r') (h' : r'.Advances n d' r'') :
    r.Advances (m + n) d' r'' where
  deserializer := h'.deserializer
  pending := by rw [h'.pending, h.pending, List.drop_drop]
  offset := by rw [h'.offset, h.offset, Nat.add_assoc]
  steady := fun hsteady => h'.steady (h.steady hsteady)

/-- Using bytes of the window. -/
theorem advances_consume (h : m ≤ r.window.bytes.length) (events : Nat) :
    r.Advances m d { r with
      deserializer := d
      window := r.window.consume m h
      events := events } where
  deserializer := rfl
  pending := by
    simp only [Reader.pending, Window.bytes_consume]
    rw [List.drop_append_of_le_length h]
  offset := Window.streamOffset_consume r.window m h
  steady := id

/-- Reading from the source uses nothing. -/
theorem advances_fill {filled : Window.Filled} {window : Window} {source : Source}
    (h : r.window.fill r.source = (filled, window, source)) :
    r.Advances 0 d { r with source := source, deserializer := d, window := window } :=
  have hfill := Window.refills_of_fill h
  ⟨rfl, hfill.bytes, hfill.offset, hfill.steady⟩

end

end Reader

end LogCodec
