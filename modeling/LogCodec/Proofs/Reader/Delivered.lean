import LogCodec.Proofs.Reader.Capacity
import LogCodec.Proofs.Reader.Unchecked

/-! # The window and what the source delivered

    The window of a reader holds the bytes that its source delivered and that were not used
    yet, each of them once and in order.  Compacting, growing, filling and using bytes each
    change some of the bounds, the offset and the buffer, and keep this together.

    * `Window.Unchecked.Tracks`: the invariant of a buffer, in terms of its numbers alone.
    * `Window.Unchecked.MakesRoom`: what making room does, and in which order.
    * `Window.Unchecked.Serves`: one read of a source, into any buffer with bounds in order.
    * `Refill.Tracks`: a read with the invariant before and after it.
    * `Reader.Unchecked.buffer_tracks`: the invariant holds of a reader at all times until
      it is closed. -/

namespace LogCodec

/-! ### Making room -/

namespace Window

variable (w : Window)

theorem makeRoom_of_le (h : lowWater ≤ w.room) : w.makeRoom = w := if_pos h

theorem makeRoom_of_lt (h : w.room < lowWater) : w.makeRoom = w.compact.grow :=
  if_neg (Nat.not_le_of_lt h)

/-- Where room was made, there is nothing more to be done. -/
theorem makeRoom_makeRoom : w.makeRoom.makeRoom = w.makeRoom :=
  makeRoom_of_le _ (lowWater_le_room_makeRoom w)

theorem start_compact : w.compact.start = 0 := by
  unfold compact
  split
  · rfl
  · omega

theorem compactions_compact :
    w.compact.compactions = w.compactions + if 0 < w.start then 1 else 0 := by
  unfold compact
  split <;> rfl

theorem growths_compact : w.compact.growths = w.growths := by
  unfold compact
  split <;> rfl

/-- All that is in front of the window is free after it was moved. -/
theorem room_compact : w.compact.room = w.capacity - (w.stop - w.start) := by
  rw [room, capacity_compact, stop_compact, length_bytes]

/-- Growing moves nothing. -/
theorem unmoved_grow : w.grow.start = w.start ∧ w.grow.compactions = w.compactions := by
  unfold grow
  split <;> exact ⟨rfl, rfl⟩

/-- A buffer grows if there is too little room, and to the size that this takes at least. -/
theorem growths_grow :
    if w.room < lowWater then
      w.grow.growths = w.growths + 1 ∧
        w.grow.capacity = max (w.capacity * 2) (w.stop + lowWater)
    else w.grow.growths = w.growths ∧ w.grow.capacity = w.capacity := by
  by_cases hroom : w.room < lowWater
  · rw [if_pos hroom, grow, if_pos hroom]
    refine ⟨rfl, ?_⟩
    rw [capacity, Array.size_append, Array.size_replicate]
    show w.capacity + (max (w.capacity * 2) (w.stop + lowWater) - w.capacity) = _
    omega
  · rw [if_neg hroom, grow, if_neg hroom]
    exact ⟨rfl, rfl⟩

/-- Where the window ends in the stream. -/
theorem offset_add_stop : w.offset + w.stop = w.streamOffset + w.bytes.length := by
  have hle := w.start_le_stop
  rw [streamOffset, length_bytes]
  omega

theorem bytesRead_makeRoom : w.makeRoom.bytesRead = w.bytesRead := by
  have hcompact : w.compact.bytesRead = w.bytesRead := by
    unfold compact
    split <;> rfl
  have hgrow : w.compact.grow.bytesRead = w.compact.bytesRead := by
    unfold grow
    split <;> rfl
  unfold makeRoom
  split
  · rfl
  · rw [hgrow, hcompact]

namespace Unchecked

/-- What making room does. -/
structure MakesRoom (b b' : Unchecked) : Prop where
  bounded : b'.Bounded
  /-- No byte is lost, and no place in the stream. -/
  bytes : b'.bytes? = b.bytes?
  place : b'.streamOffset = b.streamOffset
  /-- There is room then, and doing it once more changes nothing. -/
  room : lowWater ≤ b'.buffer.size - b'.stop
  again : b'.makeRoom? = some b'
  /-- If there was room before, nothing is changed at all. -/
  kept : lowWater ≤ b.buffer.size - b.stop → b' = b
  /-- If not, the unused bytes are moved to the front, unless they are there. -/
  moved : b.buffer.size - b.stop < lowWater →
    b'.start = 0 ∧ b'.compactions = b.compactions + if 0 < b.start then 1 else 0
  /-- And only if there is still too little room behind them, the buffer grows. -/
  grown : b.buffer.size - b.stop < lowWater →
    if b.buffer.size - (b.stop - b.start) < lowWater then
      b'.growths = b.growths + 1 ∧
        b'.buffer.size = max (b.buffer.size * 2) (b.stop - b.start + lowWater)
    else b'.growths = b.growths ∧ b'.buffer.size = b.buffer.size

theorem makesRoom_unchecked (w : Window) : w.unchecked.MakesRoom w.makeRoom.unchecked where
  bounded := ⟨w.makeRoom.start_le_stop, w.makeRoom.stop_le_size⟩
  bytes := by rw [bytes?_unchecked, bytes?_unchecked, bytes_makeRoom]
  place := streamOffset_makeRoom w
  room := lowWater_le_room_makeRoom w
  again := by rw [makeRoom?_unchecked, makeRoom_makeRoom]
  kept := fun hroom => by rw [makeRoom_of_le w hroom]
  moved := fun hroom => by
    obtain ⟨hstart, hcompactions⟩ := w.compact.unmoved_grow
    rw [makeRoom_of_lt w hroom]
    exact ⟨hstart.trans w.start_compact, hcompactions.trans w.compactions_compact⟩
  grown := fun hroom => by
    have hgrow := w.compact.growths_grow
    rw [room_compact, growths_compact, capacity_compact, stop_compact, length_bytes] at hgrow
    rw [makeRoom_of_lt w hroom]
    exact hgrow

end Unchecked

end Window

/-! ### One read -/

/-- The source gives nothing to a read that has room only when it has nothing left.  It may
    fail at any time. -/
def Source.Honest (s : Source) : Prop :=
  ∀ (room : Nat) (earlier : List Nat) (limit : Nat), 0 < room →
    (s.plan (room :: earlier)).answer = .give limit → 0 < limit

theorem Source.Honest.data_eq_nil {s s' : Source} {room calls : Nat} (h : s.Honest)
    (hroom : 0 < room) (hread : s.read room = (.gave [], calls, s')) : s.data = [] := by
  unfold read at hread
  dsimp only at hread
  split at hread
  · cases hread
  · rename_i limit hanswer
    have hlimit := h room s.offered limit hroom hanswer
    split at hread
    · cases hread
    · obtain ⟨hnone, -⟩ := Prod.mk.inj hread
      rcases List.take_eq_nil_iff.1 (Source.Reply.gave.inj hnone) with hzero | hdata
      · omega
      · exact hdata

namespace Window.Unchecked

/-- A buffer can make room, and then reads from any source with that room.  So the source is
    never asked for nothing, and if it gives nothing, that is its end. -/
structure Serves (b : Unchecked) : Prop where
  makesRoom : ∃ b', b.makeRoom? = some b' ∧ b.MakesRoom b'
  reads : ∀ source : Source, ∃ filled b' room, lowWater ≤ room ∧
    b.fill? source = some (filled, b', source.after [room]) ∧
    (source.Honest → filled = .exhausted → source.data = [])

theorem Bounded.serves {b : Unchecked} (h : b.Bounded) : b.Serves := by
  obtain ⟨w, rfl⟩ := h.exists_window
  refine ⟨⟨_, makeRoom?_unchecked w, makesRoom_unchecked w⟩, fun source => ?_⟩
  cases hf : w.fill source with
  | mk filled rest =>
    obtain ⟨w', source'⟩ := rest
    have hfill := fill?_unchecked w source
    obtain ⟨hsource, -⟩ := read_of_fill hf
    rw [hf] at hfill
    refine ⟨filled, _, w.makeRoom.room, lowWater_le_room_makeRoom w, hsource ▸ hfill, ?_⟩
    intro hhonest hexhausted
    rw [hexhausted] at hf
    obtain ⟨_, hr⟩ := gave_nil_of_fill_exhausted hf
    exact hhonest.data_eq_nil w.room_makeRoom_pos hr

/-! ### The invariant -/

/-- The bounds are in order, and what stands between them are the bytes that were delivered,
    from the place of the first one that was not used up to the last one. -/
structure Tracks (delivered : Bytes) (b : Unchecked) : Prop where
  ordered : b.start ≤ b.stop
  within : b.stop ≤ b.buffer.size
  counted : b.offset + b.stop = b.bytesRead
  length : delivered.length = b.bytesRead
  bytes : (b.buffer.extract b.start b.stop).toList = delivered.drop b.streamOffset

theorem tracks_unchecked {w : Window} {delivered : Bytes}
    (hcounted : w.offset + w.stop = w.bytesRead) (hlength : delivered.length = w.bytesRead)
    (hbytes : w.bytes = delivered.drop w.streamOffset) : w.unchecked.Tracks delivered :=
  ⟨w.start_le_stop, w.stop_le_size, hcounted, hlength, hbytes⟩

theorem tracks_empty (capacity : Nat) : (Window.empty capacity).unchecked.Tracks [] :=
  tracks_unchecked rfl rfl (bytes_empty capacity)

variable {w w' : Window} {delivered : Bytes}

theorem Tracks.consume (h : w.unchecked.Tracks delivered) (size : Nat)
    (hsize : size ≤ w.bytes.length) : (w.consume size hsize).unchecked.Tracks delivered := by
  refine tracks_unchecked h.counted h.length ?_
  have hbytes : w.bytes = delivered.drop w.streamOffset := h.bytes
  rw [bytes_consume, streamOffset_consume, hbytes, List.drop_drop]

theorem Tracks.makeRoom (h : w.unchecked.Tracks delivered) :
    w.makeRoom.unchecked.Tracks delivered := by
  have hcounted : w.offset + w.stop = w.bytesRead := h.counted
  have hbytes : w.bytes = delivered.drop w.streamOffset := h.bytes
  refine tracks_unchecked ?_ ?_ ?_
  · -- the window keeps its place and its length, and so the place of its end
    rw [offset_add_stop, streamOffset_makeRoom, bytes_makeRoom, ← offset_add_stop, hcounted,
      bytesRead_makeRoom]
  · rw [bytesRead_makeRoom]
    exact h.length
  · rw [bytes_makeRoom, streamOffset_makeRoom]
    exact hbytes

theorem Tracks.append (h : w.unchecked.Tracks delivered) {given : Bytes}
    (hfits : given.length ≤ w.room) :
    (w.append given hfits).unchecked.Tracks (delivered ++ given) := by
  have hcounted : w.offset + w.stop = w.bytesRead := h.counted
  have hlength : delivered.length = w.bytesRead := h.length
  have hbytes : w.bytes = delivered.drop w.streamOffset := h.bytes
  have hplace : w.streamOffset ≤ delivered.length := by
    rw [hlength, ← hcounted]
    exact Nat.add_le_add_left w.start_le_stop _
  refine tracks_unchecked ?_ ?_ ?_
  · show w.offset + (w.stop + given.length) = w.bytesRead + given.length
    omega
  · show (delivered ++ given).length = w.bytesRead + given.length
    rw [List.length_append, hlength]
  · show (w.append given hfits).bytes = (delivered ++ given).drop w.streamOffset
    rw [bytes_append, List.drop_append_of_le_length hplace, hbytes]

/-- **One read** delivers some bytes, or none. -/
theorem Tracks.fill {source source' : Source} {filled : Filled}
    (h : w.unchecked.Tracks delivered) (hf : w.fill source = (filled, w', source')) :
    ∃ given, source.data = given ++ source'.data ∧ w'.unchecked.Tracks (delivered ++ given) := by
  cases hr : source.read w.makeRoom.room with
  | mk reply rest =>
    obtain ⟨calls, after⟩ := rest
    cases reply with
    | gave given =>
      rw [fill_of_gave hr] at hf
      cases hf
      have happend := h.makeRoom.append (Source.length_of_read_gave hr)
      exact ⟨given, Source.data_of_read_gave hr,
        tracks_unchecked happend.counted happend.length happend.bytes⟩
    | failed reason =>
      rw [fill_of_failed hr] at hf
      cases hf
      refine ⟨[], (Source.data_of_read_failed hr).symm, ?_⟩
      rw [List.append_nil]
      exact tracks_unchecked h.makeRoom.counted h.makeRoom.length h.makeRoom.bytes

end Window.Unchecked

/-! ### Readers -/

namespace Reader

/-- The buffer of a reader keeps what its source delivered of the data. -/
def Unchecked.Tracks (data : Bytes) (r : Unchecked) : Prop :=
  ∃ delivered, data = delivered ++ r.source.data ∧ r.buffer.Tracks delivered

end Reader

/-- A read of a source that had the data.  The buffer keeps what was delivered, before the
    read and after it, and the read has room. -/
structure Refill.Tracks (data : Bytes) (x : Refill) : Prop where
  before : ∃ delivered, delivered <+: data ∧ x.before.unchecked.Tracks delivered
  after : ∃ delivered, delivered <+: data ∧ x.after.unchecked.Tracks delivered
  room : Window.lowWater ≤ x.room

/-- A read keeps what was delivered, and what it delivers now. -/
theorem Refill.tracks_of_fill {data delivered : Bytes} {source source' : Source}
    {window window' : Window} {filled : Window.Filled} (hdata : data = delivered ++ source.data)
    (h : window.unchecked.Tracks delivered)
    (hf : window.fill source = (filled, window', source')) :
    Tracks data ⟨window, window'⟩ ∧
      ∃ delivered', data = delivered' ++ source'.data ∧ window'.unchecked.Tracks delivered' := by
  obtain ⟨given, hgiven, hafter⟩ := h.fill hf
  have hdata' : data = (delivered ++ given) ++ source'.data := by
    rw [hdata, hgiven, List.append_assoc]
  refine ⟨⟨⟨delivered, ?_, h⟩, ⟨_, ?_, hafter⟩, ?_⟩, _, hdata', hafter⟩
  · exact ⟨source.data, hdata.symm⟩
  · exact ⟨source'.data, hdata'.symm⟩
  · exact window.lowWater_le_room_makeRoom

namespace Reader

variable {data : Bytes} {r r' : Reader}

theorem tracks_of_uses (h : r.unchecked.Tracks data) (huses : r.Uses r') :
    r'.unchecked.Tracks data := by
  obtain ⟨delivered, hdata, hbuffer⟩ := h
  obtain ⟨hsource, -, -, size, hsize, hwindow, -⟩ := huses
  refine ⟨delivered, ?_, ?_⟩
  · rw [hdata]
    exact congrArg _ (congrArg Source.data hsource.symm)
  · show r'.window.unchecked.Tracks delivered
    rw [hwindow]
    exact hbuffer.consume size hsize

/-- **All steps** keep the invariant. -/
theorem Steps.tracks {refills : List Refill} (hsteps : r.Steps refills r')
    (h : r.unchecked.Tracks data) :
    (∀ x ∈ refills, x.Tracks data) ∧ r'.unchecked.Tracks data := by
  induction hsteps with
  | use huses => exact ⟨fun _ hx => absurd hx List.not_mem_nil, tracks_of_uses h huses⟩
  | fill huses _ hfill _ ih =>
    obtain ⟨delivered, hdata, hbuffer⟩ := tracks_of_uses h huses
    obtain ⟨hrefill, hafter⟩ := Refill.tracks_of_fill hdata hbuffer hfill
    obtain ⟨hrest, hend⟩ := ih hafter
    exact ⟨List.forall_mem_cons.2 ⟨hrefill, hrest⟩, hend⟩

/-- Reading does not close a reader. -/
theorem Steps.closed_eq {refills : List Refill} (hsteps : r.Steps refills r') :
    r'.deserializer.closed = r.deserializer.closed := by
  induction hsteps with
  | use huses => exact huses.closed
  | fill huses _ _ _ ih => exact ih.trans huses.closed

/-- **A reader that is opened** keeps what was delivered from the first read on. -/
theorem tracks_of_openWith {source : Source} {window : Window} {delivered : Bytes}
    (hdata : data = delivered ++ source.data) (h : window.unchecked.Tracks delivered) :
    (∀ x ∈ openRefills source window, x.Tracks data) ∧
      ∀ r, openWith source window = .ok r →
        r.deserializer.closed = false ∧ r.unchecked.Tracks data := by
  -- along the reads of the source
  fun_induction openWith source window generalizing delivered with
  | case1 source window d size hp =>
    rw [openRefills_of_settled (by rw [hp]; simp)]
    refine ⟨fun _ hx => absurd hx List.not_mem_nil, ?_⟩
    intro r hr
    cases hr
    exact ⟨(Deserializer.live_of_ofBytes hp).closed, delivered, hdata,
      h.consume size (Deserializer.size_of_ofBytes hp)⟩
  | case2 source window hp window' source' hf ih =>
    obtain ⟨hrefill, delivered', hdata', hafter⟩ := Refill.tracks_of_fill hdata h hf
    obtain ⟨hrest, hopened⟩ := ih hdata' hafter
    rw [openRefills_of_incomplete hp hf, if_pos rfl]
    exact ⟨List.forall_mem_cons.2 ⟨hrefill, hrest⟩, hopened⟩
  | case3 source window hp window' source' hf
  | case4 source window hp window' source' reason hf =>
    obtain ⟨hrefill, -⟩ := Refill.tracks_of_fill hdata h hf
    rw [openRefills_of_incomplete hp hf, if_neg (by simp)]
    refine ⟨List.forall_mem_singleton.2 hrefill, ?_⟩
    intro r hr
    cases hr
  | case5 source window error hne hp =>
    rw [openRefills_of_settled (by rw [hp]; simpa using hne)]
    refine ⟨fun _ hx => absurd hx List.not_mem_nil, ?_⟩
    intro r hr
    cases hr

/-- A reader is closed by closing it, and by nothing else. -/
theorem closed_afterCalls (r : Reader) (calls : List Call) :
    (r.afterCalls calls).deserializer.closed = true ↔
      r.deserializer.closed = true ∨ .close ∈ calls := by
  induction calls generalizing r with
  | nil => simp [afterCalls]
  | cons call rest ih =>
    cases call with
    | read request =>
      have hclosed := (request_steps request r).closed_eq
      show ((request.run r).2.afterCalls rest).deserializer.closed = true ↔ _
      rw [ih, hclosed]
      simp
    | close =>
      show (r.close.afterCalls rest).deserializer.closed = true ↔ _
      rw [ih]
      simp [close, Deserializer.close]

/-- **Several calls** keep the invariant until the reader is closed. -/
theorem tracks_afterCalls (hopen : r.deserializer.closed = false) (h : r.unchecked.Tracks data)
    (calls : List Call) :
    (∀ x ∈ r.callRefills calls, x.Tracks data) ∧
      ((r.afterCalls calls).deserializer.closed = false →
        (r.afterCalls calls).unchecked.Tracks data) := by
  induction calls generalizing r with
  | nil => exact ⟨fun _ hx => absurd hx List.not_mem_nil, fun _ => h⟩
  | cons call rest ih =>
    cases call with
    | read request =>
      have hsteps := request_steps request r
      obtain ⟨htracks, hafter⟩ := hsteps.tracks h
      obtain ⟨hrest, hend⟩ := ih (hsteps.closed_eq.trans hopen) hafter
      refine ⟨?_, hend⟩
      intro x hx
      rcases List.mem_append.1 hx with hx | hx
      · exact htracks x hx
      · exact hrest x hx
    | close =>
      -- the calls that follow find a closed reader, and do not read
      have hclosed : r.close.deserializer.closed = true := rfl
      obtain ⟨hnone, -⟩ := afterCalls_of_closed hclosed rfl rest
      refine ⟨?_, fun hstill => ?_⟩
      · intro x hx
        have hx : x ∈ r.close.callRefills rest := hx
        rw [hnone] at hx
        exact absurd hx List.not_mem_nil
      · have hgone := (r.close.closed_afterCalls rest).2 (.inl hclosed)
        exact absurd (hgone.symm.trans hstill) (by decide)

/-- **The buffer of a reader holds what its source delivered and the reader did not use yet.**

    The buffer is taken without the proofs of its bounds, and its operations fail where the
    bounds are not in order, or where more bytes are used than there are.  Any buffer with
    bounds in order can make room and read, and an honest source that gives nothing then has
    nothing left.  A reader that is opened, and is asked for anything any number of times,
    never fails in this way.  Until it is closed, the buffer holds the bytes that the source
    delivered and that were not used, also before and after each single read. -/
theorem Unchecked.buffer_tracks (source : Source) (capacity : Nat) :
    (∀ b : Window.Unchecked, b.Bounded → b.Serves) ∧
      (∀ x ∈ openRefills source (Window.empty capacity), x.Tracks source.data) ∧
      open? source capacity = some ((Reader.open source capacity).map Reader.unchecked) ∧
      ∀ r, Reader.open source capacity = .ok r → ∀ calls : List Call,
        r.unchecked.afterCalls? calls = some (r.afterCalls calls).unchecked ∧
          (∀ x ∈ r.callRefills calls, x.Tracks source.data) ∧
          source.roomsTo (r.afterCalls calls).source =
            (openRefills source (Window.empty capacity) ++ r.callRefills calls).map Refill.room ∧
          ((r.afterCalls calls).deserializer.closed = true ↔ .close ∈ calls) ∧
          ((r.afterCalls calls).deserializer.closed = false →
            (r.afterCalls calls).unchecked.Tracks source.data) := by
  obtain ⟨hopening, hopened⟩ := tracks_of_openWith rfl (Window.Unchecked.tracks_empty capacity)
  refine ⟨fun b hb => hb.serves, hopening, openWith?_unchecked source (Window.empty capacity), ?_⟩
  intro r hr calls
  obtain ⟨hopen, htracks⟩ := hopened r hr
  obtain ⟨hcalls, hafter⟩ := tracks_afterCalls hopen htracks calls
  refine ⟨afterCalls?_unchecked r calls, hcalls, ?_, ?_, hafter⟩
  · rw [source_afterCalls, source_of_openWith hr, ← Source.after_append, ← List.map_append,
      Source.roomsTo_after]
  · rw [closed_afterCalls, hopen]
    simp

/-- A stream that is cut short, read three bytes at a time into a buffer that has room for one
    byte at first. -/
theorem Unchecked.buffer_tracks_cut :
    let source := Source.inChunks 3 [0xFD, 0x2F, 0xB5, 0x29, 8, 1, 0, 2, 0x7B, 0x7D, 1, 0, 0, 0, 1]
    (Window.Unchecked.empty 0).Serves ∧
      ∃ r, Reader.open source 0 = .ok r ∧
        r.unchecked.afterCalls? [.read .next] = some (r.afterCalls [.read .next]).unchecked ∧
        (∀ x ∈ r.callRefills [.read .next], x.Tracks source.data) ∧
        (r.afterCalls [.read .next]).unchecked.Tracks source.data ∧
        (r.afterCalls [.read .next, .close]).deserializer.closed = true := by
  intro source
  have hsteady : source.Steady := Source.steady_inChunks (by decide) _
  have hopen := open_answers hsteady 0
  obtain ⟨d, hpreamble⟩ : ∃ d, Deserializer.ofBytes source.data = .ok (d, 10) :=
    ⟨Deserializer.ofPreamble ⟨.eightByte, ⟨"", "", ""⟩, 0⟩, by decide +kernel⟩
  rw [hpreamble] at hopen
  obtain ⟨r, hr, -⟩ := hopen
  obtain ⟨hserves, -, -, hopened⟩ := Unchecked.buffer_tracks source 0
  obtain ⟨hafter, hrefills, -, hclosed, htracks⟩ := hopened r hr [.read .next]
  obtain ⟨-, -, -, hgone, -⟩ := hopened r hr [.read .next, .close]
  refine ⟨hserves _ ⟨Nat.le_refl 0, Nat.zero_le _⟩, r, hr, hafter, hrefills, htracks ?_, ?_⟩
  · exact Bool.eq_false_iff.2 (mt hclosed.1 (by simp))
  · exact hgone.2 (by simp)

end Reader

end LogCodec
