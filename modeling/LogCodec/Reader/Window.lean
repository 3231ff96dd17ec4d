import LogCodec.Reader.Source

/-! # Windows

    A reader keeps the bytes that were read from its source and not yet used in
    a buffer.  They are the window of the buffer: the bytes from `start` up to
    `stop`.  What the buffer holds outside of the window has no meaning.

    Before each read of the source at least `Window.lowWater` bytes are free
    after the window.  If they are not, the window is first moved to the front
    of the buffer, and then the buffer grows if that was not enough.

    - `Window.bytes`: the unused bytes.
    - `Window.consume`: uses bytes at the front of the window.
    - `Window.fill`: reads more bytes behind the window. -/

namespace LogCodec

/-! ### Buffers -/

namespace Buffer

/-- The buffer with other bytes from a position on. -/
def overwrite (buffer : Array UInt8) (pos : Nat) (bytes : Bytes) : Array UInt8 :=
  buffer.extract 0 pos ++ bytes.toArray ++ buffer.extract (pos + bytes.length) buffer.size

variable {buffer : Array UInt8} {pos : Nat} {bytes : Bytes}

/-- Bytes that fit into a buffer do not change its size. -/
theorem size_overwrite (h : pos + bytes.length ≤ buffer.size) :
    (overwrite buffer pos bytes).size = buffer.size := by
  simp only [overwrite, Array.size_append, Array.size_extract, List.size_toArray]
  omega

/-- The bytes up to the end of those that were written are the old ones in
    front of the position, and then the new ones. -/
theorem take_overwrite (h : pos + bytes.length ≤ buffer.size) :
    (overwrite buffer pos bytes).toList.take (pos + bytes.length) =
      buffer.toList.take pos ++ bytes := by
  have hlength : (buffer.toList.take pos ++ bytes).length = pos + bytes.length := by
    rw [List.length_append, List.length_take, Array.length_toList]
    omega
  -- the third part of the new buffer lies behind the cut
  have hlist : (overwrite buffer pos bytes).toList =
      buffer.toList.take pos ++ bytes ++ buffer.toList.drop (pos + bytes.length) := by
    simp [overwrite, List.take_of_length_le]
  rw [hlist, ← hlength, List.take_left]

end Buffer

/-! ### State -/

/-- The buffer of a reader. -/
structure Window where
  /-- What was read, and room for more. -/
  buffer : Array UInt8
  /-- Where the unused bytes start in the buffer. -/
  start : Nat
  /-- Where they end. -/
  stop : Nat
  /-- Where the first byte of the buffer stands in the stream. -/
  offset : Nat
  /-- Calls of the source, interrupted ones included. -/
  reads : Nat
  /-- Bytes that the source gave. -/
  bytesRead : Nat
  /-- How often the window was moved to the front. -/
  compactions : Nat
  /-- How often the buffer grew. -/
  growths : Nat
  start_le_stop : start ≤ stop
  stop_le_size : stop ≤ buffer.size
deriving DecidableEq

namespace Window

/-- The capacity that readers use if not told otherwise. -/
def defaultCapacity : Nat := 64 * 1024

/-- Bytes that are free after the window before each read. -/
def lowWater : Nat := 4096

/-- An empty buffer.  It has room for at least one byte. -/
def empty (capacity : Nat) : Window where
  buffer := Array.replicate (max capacity 1) 0
  start := 0
  stop := 0
  offset := 0
  reads := 0
  bytesRead := 0
  compactions := 0
  growths := 0
  start_le_stop := Nat.le_refl 0
  stop_le_size := Nat.zero_le _

/-- The unused bytes. -/
def bytes (w : Window) : Bytes := (w.buffer.extract w.start w.stop).toList

/-- The size of the buffer. -/
def capacity (w : Window) : Nat := w.buffer.size

/-- Where the window starts in the stream. -/
def streamOffset (w : Window) : Nat := w.offset + w.start

/-- Bytes that are free after the window. -/
def room (w : Window) : Nat := w.capacity - w.stop

@[simp] theorem length_bytes (w : Window) : w.bytes.length = w.stop - w.start := by
  have := w.stop_le_size
  simp only [bytes, Array.length_toList, Array.size_extract]
  omega

/-- The unused bytes are the ones up to the end of the window, without those that
    were used. -/
theorem bytes_eq_drop_take (w : Window) :
    w.bytes = (w.buffer.toList.take w.stop).drop w.start := by
  simp [bytes, List.drop_take]

@[simp] theorem bytes_empty (capacity : Nat) : (empty capacity).bytes = [] := by
  simp [bytes, empty]

/-! ### Using bytes -/

/-- Uses bytes at the front of the window, no more than there are. -/
def consume (w : Window) (size : Nat) (h : size ≤ w.bytes.length) : Window :=
  { w with
    start := w.start + size
    start_le_stop := by
      have := w.start_le_stop
      rw [length_bytes] at h
      omega }

section

variable (w : Window) (size : Nat) (h : size ≤ w.bytes.length)

@[simp] theorem bytes_consume : (w.consume size h).bytes = w.bytes.drop size := by
  rw [bytes_eq_drop_take, bytes_eq_drop_take, List.drop_drop]
  rfl

@[simp] theorem streamOffset_consume :
    (w.consume size h).streamOffset = w.streamOffset + size :=
  (Nat.add_assoc ..).symm

end

/-! ### Making room -/

/-- Moves the window to the front of the buffer. -/
def compact (w : Window) : Window :=
  if 0 < w.start then
    { w with
      buffer := Buffer.overwrite w.buffer 0 w.bytes
      start := 0
      stop := w.bytes.length
      offset := w.offset + w.start
      compactions := w.compactions + 1
      start_le_stop := Nat.zero_le _
      stop_le_size := by
        have := w.stop_le_size
        rw [Buffer.size_overwrite (by rw [length_bytes]; omega), length_bytes]
        omega }
  else w

/-- Makes the buffer larger, if there is too little room. -/
def grow (w : Window) : Window :=
  if w.room < lowWater then
    { w with
      buffer := w.buffer ++
        Array.replicate (max (w.capacity * 2) (w.stop + lowWater) - w.capacity) 0
      growths := w.growths + 1
      stop_le_size := by
        rw [Array.size_append]
        exact Nat.le_add_right_of_le w.stop_le_size }
  else w

/-- Makes room for a read. -/
def makeRoom (w : Window) : Window := if lowWater ≤ w.room then w else w.compact.grow

/-- Moving the window to the front loses no bytes. -/
@[simp] theorem bytes_compact (w : Window) : w.compact.bytes = w.bytes := by
  have hsize := w.stop_le_size
  unfold compact
  split
  · -- after the move the window is what was written to the front
    have hfits : 0 + w.bytes.length ≤ w.buffer.size := by
      rw [length_bytes]
      omega
    rw [bytes_eq_drop_take]
    simpa using Buffer.take_overwrite hfits
  · rfl

/-- A larger buffer starts with the old one. -/
@[simp] theorem bytes_grow (w : Window) : w.grow.bytes = w.bytes := by
  unfold grow
  split
  · rw [bytes_eq_drop_take, bytes_eq_drop_take, Array.toList_append,
      List.take_append_of_le_length (by rw [Array.length_toList]; exact w.stop_le_size)]
  · rfl

/-- Making room moves and loses no bytes. -/
@[simp] theorem bytes_makeRoom (w : Window) : w.makeRoom.bytes = w.bytes := by
  unfold makeRoom
  split
  · rfl
  · rw [bytes_grow, bytes_compact]

/-- Moving the window to the front keeps its place in the stream. -/
@[simp] theorem streamOffset_compact (w : Window) : w.compact.streamOffset = w.streamOffset := by
  unfold compact
  split <;> rfl

@[simp] theorem streamOffset_grow (w : Window) : w.grow.streamOffset = w.streamOffset := by
  unfold grow
  split <;> rfl

@[simp] theorem streamOffset_makeRoom (w : Window) :
    w.makeRoom.streamOffset = w.streamOffset := by
  unfold makeRoom
  split
  · rfl
  · rw [streamOffset_grow, streamOffset_compact]

/-- After growing there is room. -/
theorem lowWater_le_room_grow (w : Window) : lowWater ≤ w.grow.room := by
  have := w.stop_le_size
  unfold grow
  split
  · -- the new size is at least `stop + lowWater`
    simp only [room, capacity, Array.size_append, Array.size_replicate]
    omega
  · omega

/-- After making room there is room. -/
theorem lowWater_le_room_makeRoom (w : Window) : lowWater ≤ w.makeRoom.room := by
  unfold makeRoom
  split
  · assumption
  · exact lowWater_le_room_grow _

/-- Releases the buffer.  The place in the stream is kept. -/
def release (w : Window) : Window :=
  { w with
    buffer := #[]
    start := 0
    stop := 0
    offset := w.streamOffset
    start_le_stop := Nat.le_refl 0
    stop_le_size := Nat.zero_le _ }

/-! ### Filling -/

/-- What came of reading more bytes. -/
inductive Filled where
  /-- There are more bytes in the window. -/
  | more
  /-- The source gave nothing. -/
  | exhausted
  | failed (reason : String)
deriving DecidableEq

/-- Puts bytes behind the window, no more than there is room for. -/
def append (w : Window) (bytes : Bytes) (h : bytes.length ≤ w.room) : Window :=
  { w with
    buffer := Buffer.overwrite w.buffer w.stop bytes
    stop := w.stop + bytes.length
    bytesRead := w.bytesRead + bytes.length
    start_le_stop := Nat.le_add_right_of_le w.start_le_stop
    stop_le_size := by
      have := w.stop_le_size
      unfold room capacity at h
      rw [Buffer.size_overwrite] <;> omega }

@[simp] theorem bytes_append (w : Window) (bytes : Bytes) (h : bytes.length ≤ w.room) :
    (w.append bytes h).bytes = w.bytes ++ bytes := by
  have hsize := w.stop_le_size
  unfold room capacity at h
  rw [bytes_eq_drop_take, bytes_eq_drop_take]
  simp only [append]
  rw [Buffer.take_overwrite (by omega), List.drop_append_of_le_length]
  rw [List.length_take, Array.length_toList]
  have := w.start_le_stop
  omega

/-- Counts calls of the source. -/
def countReads (w : Window) (calls : Nat) : Window := { w with reads := w.reads + calls }

/-- Reads from the source after the window. -/
def fill (w : Window) (source : Source) : Filled × Window × Source :=
  let w := w.makeRoom
  match h : source.read w.room with
  | (.gave bytes, calls, source) =>
    (if bytes = [] then .exhausted else .more,
      (w.append bytes (Source.length_of_read_gave h)).countReads calls, source)
  | (.failed reason, calls, source) => (.failed reason, w.countReads calls, source)

/-- What a read that gave bytes does: they move from the source to the end of the
    window, which keeps its place. -/
theorem bytes_of_fill_more {w w' : Window} {source source' : Source}
    (h : w.fill source = (.more, w', source')) :
    ∃ bytes, bytes ≠ [] ∧ w'.bytes = w.bytes ++ bytes ∧ source.data = bytes ++ source'.data := by
  unfold fill at h
  simp only at h
  split at h
  · rename_i bytes calls source'' hr
    simp only [Prod.mk.injEq] at h
    obtain ⟨hm, rfl, rfl⟩ := h
    refine ⟨bytes, ?_, ?_, Source.data_of_read_gave hr⟩
    · rintro rfl
      simp at hm
    · rw [← bytes_makeRoom w]
      exact bytes_append _ _ (Source.length_of_read_gave hr)
  · simp at h

/-- A source that gave bytes has fewer left, by as many as the window has more. -/
theorem length_of_fill_more {w w' : Window} {source source' : Source}
    (h : w.fill source = (.more, w', source')) :
    source'.data.length < source.data.length ∧
      w'.bytes.length + source'.data.length = w.bytes.length + source.data.length := by
  obtain ⟨bytes, hne, hw, hs⟩ := bytes_of_fill_more h
  have hpos := List.length_pos_iff.2 hne
  rw [hw, hs, List.length_append, List.length_append]
  omega

end Window

end LogCodec
