import LogCodec.Proofs.Reader.Refills

/-! # Buffers that are not checked

    A window carries the proof that its bounds lie in its buffer, and is asked only for
    what it has.  Here is a buffer that does neither.  Its bounds are numbers of which
    nothing is known, and an operation fails where a difference would be negative, where
    bytes outside of the buffer would be looked at or written, where more bytes would be
    used than there are, and where too little room was made.

    * `Window.Unchecked`, `Reader.Unchecked`: the buffer, and a reader that has it.
    * `Window.unchecked`, `Reader.unchecked`: a window and a reader without the proofs.
    * `Reader.Unchecked.openWith?_unchecked`, `Request.run?_unchecked`: the reader without the
      proofs never fails, and does what the reader does. -/

namespace LogCodec

/-! ### Buffers -/

/-- A buffer with bounds of which nothing is known, and the counts of a window. -/
structure Window.Unchecked where
  buffer : Array UInt8
  start : Nat
  stop : Nat
  offset : Nat
  reads : Nat
  bytesRead : Nat
  compactions : Nat
  growths : Nat
deriving DecidableEq

namespace Window

namespace Unchecked

/-- An empty buffer. -/
def empty (capacity : Nat) : Unchecked :=
  ⟨Array.replicate (max capacity 1) 0, 0, 0, 0, 0, 0, 0, 0⟩

/-- Where the unused bytes start in the stream. -/
def streamOffset (b : Unchecked) : Nat := b.offset + b.start

/-- The unused bytes, if the bounds are in order. -/
def bytes? (b : Unchecked) : Option Bytes :=
  if b.start ≤ b.stop ∧ b.stop ≤ b.buffer.size then
    some (b.buffer.extract b.start b.stop).toList
  else none

/-- Uses bytes, if there are so many. -/
def consume? (b : Unchecked) (size : Nat) : Option Unchecked :=
  if b.start + size ≤ b.stop then some { b with start := b.start + size } else none

/-- Bytes that are free after the unused ones. -/
def room? (b : Unchecked) : Option Nat :=
  if b.stop ≤ b.buffer.size then some (b.buffer.size - b.stop) else none

/-- Moves the unused bytes to the front of the buffer. -/
def compact? (b : Unchecked) : Option Unchecked :=
  if 0 < b.start then
    b.bytes?.map fun bytes =>
      { b with
        buffer := Buffer.overwrite b.buffer 0 bytes
        start := 0
        stop := b.stop - b.start
        offset := b.offset + b.start
        compactions := b.compactions + 1 }
  else some b

/-- Makes the buffer larger, if there is too little room. -/
def grow? (b : Unchecked) : Option Unchecked :=
  b.room?.map fun room =>
    if room < lowWater then
      { b with
        buffer := b.buffer ++
          Array.replicate (max (b.buffer.size * 2) (b.stop + lowWater) - b.buffer.size) 0
        growths := b.growths + 1 }
    else b

/-- Makes room for a read, and looks whether there is room then. -/
def makeRoom? (b : Unchecked) : Option Unchecked :=
  b.room?.bind fun room =>
    if lowWater ≤ room then some b
    else
      (b.compact?.bind grow?).bind fun b =>
        b.room?.bind fun room => if lowWater ≤ room then some b else none

/-- Puts bytes behind the unused ones, if they fit. -/
def append? (b : Unchecked) (bytes : Bytes) : Option Unchecked :=
  if b.stop + bytes.length ≤ b.buffer.size then
    some { b with
      buffer := Buffer.overwrite b.buffer b.stop bytes
      stop := b.stop + bytes.length
      bytesRead := b.bytesRead + bytes.length }
  else none

/-- Counts calls of the source. -/
def countReads (b : Unchecked) (calls : Nat) : Unchecked := { b with reads := b.reads + calls }

/-- Reads from the source after the unused bytes. -/
def fill? (b : Unchecked) (source : Source) : Option (Filled × Unchecked × Source) :=
  b.makeRoom?.bind fun b => b.room?.bind fun room =>
    match source.read room with
    | (.gave bytes, calls, source) =>
      (b.append? bytes).map fun b =>
        (if bytes = [] then .exhausted else .more, b.countReads calls, source)
    | (.failed reason, calls, source) => some (.failed reason, b.countReads calls, source)

/-- Releases the buffer. -/
def release (b : Unchecked) : Unchecked :=
  { b with buffer := #[], start := 0, stop := 0, offset := b.streamOffset }

end Unchecked

/-- The window without the proofs that its bounds are in order. -/
def unchecked (w : Window) : Unchecked :=
  ⟨w.buffer, w.start, w.stop, w.offset, w.reads, w.bytesRead, w.compactions, w.growths⟩

/-! ### Windows never fail -/

namespace Unchecked

variable (w : Window)

theorem bytes?_unchecked : w.unchecked.bytes? = some w.bytes :=
  if_pos ⟨w.start_le_stop, w.stop_le_size⟩

theorem consume?_unchecked (size : Nat) (h : size ≤ w.bytes.length) :
    w.unchecked.consume? size = some (w.consume size h).unchecked := by
  apply if_pos
  show w.start + size ≤ w.stop
  have hle := w.start_le_stop
  rw [length_bytes] at h
  omega

theorem room?_unchecked : w.unchecked.room? = some w.room := if_pos w.stop_le_size

theorem compact?_unchecked : w.unchecked.compact? = some w.compact.unchecked := by
  unfold compact? compact
  by_cases hstart : 0 < w.start
  · rw [if_pos (show 0 < w.unchecked.start from hstart), if_pos hstart, bytes?_unchecked]
    simp only [unchecked, Option.map_some, length_bytes]
  · rw [if_neg (show ¬ 0 < w.unchecked.start from hstart), if_neg hstart]

theorem grow?_unchecked : w.unchecked.grow? = some w.grow.unchecked := by
  rw [grow?, room?_unchecked, Option.map_some, grow]
  by_cases hroom : w.room < lowWater
  · rw [if_pos hroom, if_pos hroom]
    rfl
  · rw [if_neg hroom, if_neg hroom]

theorem makeRoom?_unchecked : w.unchecked.makeRoom? = some w.makeRoom.unchecked := by
  rw [makeRoom?, room?_unchecked, Option.bind_some, makeRoom]
  by_cases hroom : lowWater ≤ w.room
  · rw [if_pos hroom, if_pos hroom]
  · have hgrow : w.unchecked.compact?.bind grow? = some w.compact.grow.unchecked := by
      rw [compact?_unchecked, Option.bind_some, grow?_unchecked]
    rw [if_neg hroom, if_neg hroom, hgrow, Option.bind_some, room?_unchecked, Option.bind_some,
      if_pos (lowWater_le_room_grow _)]

theorem append?_unchecked (bytes : Bytes) (h : bytes.length ≤ w.room) :
    w.unchecked.append? bytes = some (w.append bytes h).unchecked := by
  apply if_pos
  show w.stop + bytes.length ≤ w.buffer.size
  have hle := w.stop_le_size
  rw [room, capacity] at h
  omega

theorem fill?_unchecked (source : Source) :
    w.unchecked.fill? source =
      some ((w.fill source).1, (w.fill source).2.1.unchecked, (w.fill source).2.2) := by
  rw [fill?, makeRoom?_unchecked, Option.bind_some, room?_unchecked, Option.bind_some]
  cases hr : source.read w.makeRoom.room with
  | mk reply rest =>
    obtain ⟨calls, source'⟩ := rest
    cases reply with
    | gave bytes =>
      rw [fill_of_gave hr]
      dsimp only
      rw [append?_unchecked _ _ (Source.length_of_read_gave hr)]
      rfl
    | failed reason =>
      rw [fill_of_failed hr]
      rfl

variable {b b' : Unchecked} {source source' : Source}

/-- The bounds are in order. -/
def Bounded (b : Unchecked) : Prop := b.start ≤ b.stop ∧ b.stop ≤ b.buffer.size

/-- A buffer with bounds in order is a window. -/
theorem Bounded.exists_window (h : b.Bounded) : ∃ w : Window, w.unchecked = b :=
  ⟨⟨b.buffer, b.start, b.stop, b.offset, b.reads, b.bytesRead, b.compactions, b.growths, h.1, h.2⟩,
    rfl⟩

/-- Bytes are looked at only if the bounds are in order. -/
theorem bounded_of_bytes? {bytes : Bytes} (h : b.bytes? = some bytes) : b.Bounded := by
  unfold bytes? at h
  split at h
  · assumption
  · cases h

/-- A source that gave bytes has fewer left. -/
theorem length_of_fill?_more (h : b.fill? source = some (.more, b', source')) :
    source'.data.length < source.data.length := by
  obtain ⟨b₁, -, h⟩ := Option.bind_eq_some_iff.1 h
  obtain ⟨room, -, h⟩ := Option.bind_eq_some_iff.1 h
  split at h
  · rename_i bytes calls after hread
    obtain ⟨b₂, -, h⟩ := Option.map_eq_some_iff.1 h
    simp only [Prod.mk.injEq] at h
    obtain ⟨hmore, -, rfl⟩ := h
    have hdata := congrArg List.length (Source.data_of_read_gave hread)
    have hbytes : bytes ≠ [] := by
      rintro rfl
      cases hmore
    have hpos := List.length_pos_iff.2 hbytes
    rw [List.length_append] at hdata
    omega
  · cases h

end Unchecked

end Window

/-! ### Readers -/

/-- A reader with a buffer that is not checked. -/
structure Reader.Unchecked where
  source : Source
  deserializer : Deserializer
  buffer : Window.Unchecked
  events : Nat

namespace Reader

/-- The reader without the proofs of its window. -/
def unchecked (r : Reader) : Unchecked := ⟨r.source, r.deserializer, r.window.unchecked, r.events⟩

namespace Unchecked

/-- Reads from the source until the buffer holds a preamble. -/
def openWith? (source : Source) (buffer : Window.Unchecked) : Option (Result Unchecked) :=
  match buffer.bytes? with
  | none => none
  | some bytes =>
    match Deserializer.ofBytes bytes with
    | .ok (deserializer, size) =>
      (buffer.consume? size).map fun buffer => .ok ⟨source, deserializer, buffer, 0⟩
    | .error .incomplete =>
      match _h : buffer.fill? source with
      | none => none
      | some (.more, buffer, source) => openWith? source buffer
      | some (.exhausted, _, _) => some (.error .incomplete)
      | some (.failed reason, _, _) => some (.error (.io reason))
    | .error error => some (.error error)
termination_by source.data.length
decreasing_by exact Window.Unchecked.length_of_fill?_more _h

/-- The reader of the stream that a source gives. -/
def open? (source : Source) (capacity : Nat) : Option (Result Unchecked) :=
  openWith? source (.empty capacity)

/-- The next event. -/
def next? (r : Unchecked) : Option (Result Event × Unchecked) :=
  match r.buffer.bytes? with
  | none => none
  | some bytes =>
    match r.deserializer.next bytes with
    | (.ok (event, size), deserializer) =>
      (r.buffer.consume? size).map fun buffer =>
        (.ok event, { r with deserializer, buffer, events := r.events + 1 })
    | (.error .incomplete, deserializer) =>
      match _h : r.buffer.fill? r.source with
      | none => none
      | some (.more, buffer, source) => next? { r with source, deserializer, buffer }
      | some (.exhausted, buffer, source) =>
        some (.error .incomplete, { r with source, deserializer, buffer })
      | some (.failed reason, buffer, source) =>
        some (.error (.io reason), { r with source, deserializer, buffer })
    | (.error error, deserializer) => some (.error error, { r with deserializer })
termination_by r.source.data.length
decreasing_by exact Window.Unchecked.length_of_fill?_more _h

/-- The next event in an interval that a matcher finds. -/
def nextMatch? (r : Unchecked) (interval : Interval) (matcher : Matcher) :
    Option (Result Match × Unchecked) :=
  match r.buffer.bytes? with
  | none => none
  | some bytes =>
    let search := r.deserializer.find interval matcher bytes
    match r.buffer.consume? search.consumed with
    | none => none
    | some buffer =>
      let deserializer := search.after
      match search.result with
      | .ok found => some (.ok found, { r with deserializer, buffer, events := r.events + 1 })
      | .error .incomplete | .error .noMatch =>
        match _h : buffer.fill? r.source with
        | none => none
        | some (.more, buffer, source) =>
          nextMatch? { r with source, deserializer, buffer } interval matcher
        | some (.exhausted, buffer, source) =>
          some (.error .incomplete, { r with source, deserializer, buffer })
        | some (.failed reason, buffer, source) =>
          some (.error (.io reason), { r with source, deserializer, buffer })
      | .error error => some (.error error, { r with deserializer, buffer })
termination_by r.source.data.length
decreasing_by all_goals exact Window.Unchecked.length_of_fill?_more _h

end Unchecked

end Reader

/-! ### Readers never fail -/

/-- The failure of a reader that could not fill its window. -/
def Window.Filled.error? : Window.Filled → Option Error
  | more => none
  | exhausted => some .incomplete
  | failed reason => some (.io reason)

namespace Reader.Unchecked

open Window.Unchecked (bytes?_unchecked consume?_unchecked fill?_unchecked)

section

variable {source source' : Source} {window window' : Window} {filled : Window.Filled}

theorem openWith?_of_incomplete (h : Deserializer.ofBytes window.bytes = .error .incomplete)
    (hf : window.fill source = (filled, window', source')) :
    openWith? source window.unchecked =
      match filled.error? with
      | none => openWith? source' window'.unchecked
      | some error => some (.error error) := by
  have hfill := fill?_unchecked window source
  rw [hf] at hfill
  rw [openWith?, bytes?_unchecked]
  simp only [h]
  cases filled <;> (split <;> simp_all [Window.Filled.error?])

theorem openWith?_unchecked (source : Source) (window : Window) :
    openWith? source window.unchecked = some ((openWith source window).map Reader.unchecked) := by
  -- along the reads of the source
  fun_induction openWith source window with
  | case1 source window d size hp =>
    rw [openWith?, bytes?_unchecked]
    simp only [hp, consume?_unchecked window size (Deserializer.size_of_ofBytes hp)]
    rfl
  | case2 source window hp window' source' hf ih =>
    rw [openWith?_of_incomplete hp hf]
    exact ih
  | case3 source window hp window' source' hf
  | case4 source window hp window' source' reason hf =>
    rw [openWith?_of_incomplete hp hf]
    rfl
  | case5 source window error hne hp =>
    rw [openWith?, bytes?_unchecked]
    simp only [hp]
    rfl

end

section

variable {r : Reader} {d : Deserializer} {source : Source} {window : Window}
  {filled : Window.Filled}

theorem next?_of_incomplete (h : r.deserializer.next r.window.bytes = (.error .incomplete, d))
    (hf : r.window.fill r.source = (filled, window, source)) :
    r.unchecked.next? =
      let after : Reader := { r with source := source, deserializer := d, window := window }
      match filled.error? with
      | none => after.unchecked.next?
      | some error => some (.error error, after.unchecked) := by
  have hfill := fill?_unchecked r.window r.source
  rw [hf] at hfill
  rw [next?, unchecked, bytes?_unchecked]
  simp only [h]
  cases filled <;> (split <;> simp_all [unchecked, Window.Filled.error?])

theorem next?_unchecked (r : Reader) :
    r.unchecked.next? = some (r.next.1, r.next.2.unchecked) := by
  -- along the reads of the source
  fun_induction Reader.next r with
  | case1 r event size d hd =>
    rw [next?, unchecked, bytes?_unchecked]
    simp only [hd, consume?_unchecked r.window size (Deserializer.size_of_next hd).2]
    rfl
  | case2 r d hd window source hf ih =>
    rw [next?_of_incomplete hd hf]
    exact ih
  | case3 r d hd window source hf | case4 r d hd window source reason hf =>
    rw [next?_of_incomplete hd hf]
    rfl
  | case5 r error d hne hd =>
    rw [next?, unchecked, bytes?_unchecked]
    simp only [hd]
    rfl

end

section

variable {r : Reader} {interval : Interval} {matcher : Matcher}

theorem nextMatch?_of_found {found : Match}
    (h : (r.deserializer.find interval matcher r.window.bytes).result = .ok found) :
    r.unchecked.nextMatch? interval matcher =
      some (.ok found, { r.searched interval matcher with events := r.events + 1 }.unchecked) := by
  rw [nextMatch?, unchecked, bytes?_unchecked]
  dsimp only
  rw [consume?_unchecked r.window _ (r.consumed_search_le interval matcher)]
  simp only [h]
  rfl

theorem nextMatch?_of_error {error : Error} (hincomplete : error ≠ .incomplete)
    (hnoMatch : error ≠ .noMatch)
    (h : (r.deserializer.find interval matcher r.window.bytes).result = .error error) :
    r.unchecked.nextMatch? interval matcher =
      some (.error error, (r.searched interval matcher).unchecked) := by
  rw [nextMatch?, unchecked, bytes?_unchecked]
  dsimp only
  rw [consume?_unchecked r.window _ (r.consumed_search_le interval matcher)]
  simp only [h]
  rfl

theorem nextMatch?_of_asksForMore {filled : Window.Filled} {window : Window} {source : Source}
    (h : Deserializer.AsksForMore (r.deserializer.find interval matcher r.window.bytes).result)
    (hf : (r.searched interval matcher).window.fill r.source = (filled, window, source)) :
    r.unchecked.nextMatch? interval matcher =
      let after : Reader := { r.searched interval matcher with source := source, window := window }
      match filled.error? with
      | none => after.unchecked.nextMatch? interval matcher
      | some error => some (.error error, after.unchecked) := by
  have hfill := fill?_unchecked (r.searched interval matcher).window r.source
  have hconsume := consume?_unchecked r.window _ (r.consumed_search_le interval matcher)
  rw [hf] at hfill
  rw [nextMatch?, unchecked, bytes?_unchecked]
  dsimp only
  rw [hconsume]
  rcases h with h | h <;> simp only [h]
  all_goals cases filled <;> (split <;> simp_all [unchecked, searched, Window.Filled.error?])

theorem nextMatch?_unchecked (r : Reader) (interval : Interval) (matcher : Matcher) :
    r.unchecked.nextMatch? interval matcher =
      some ((r.nextMatch interval matcher).1, (r.nextMatch interval matcher).2.unchecked) := by
  -- along the reads of the source
  unfold Reader.nextMatch
  fun_induction Reader.nextPassing r interval matcher.find? with
  | case1 r search window d found hs => exact nextMatch?_of_found hs
  | case2 r search window d hs window' source hf ih =>
    rw [nextMatch?_of_asksForMore (.inl hs) hf]
    exact ih
  | case5 r search window d hs window' source hf ih =>
    rw [nextMatch?_of_asksForMore (.inr hs) hf]
    exact ih
  | case3 r search window d hs window' source hf
  | case4 r search window d hs window' source reason hf =>
    rw [nextMatch?_of_asksForMore (.inl hs) hf]
    rfl
  | case6 r search window d hs window' source hf
  | case7 r search window d hs window' source reason hf =>
    rw [nextMatch?_of_asksForMore (.inr hs) hf]
    rfl
  | case8 r search window d error hincomplete hnoMatch hs =>
    exact nextMatch?_of_error hincomplete hnoMatch hs

end

/-! ### Reading until a property holds -/

/-- The bytes of the stream that are still to be used. -/
def ahead (r : Unchecked) : Nat := r.buffer.stop - r.buffer.start + r.source.data.length

/-- A reader that read an event had bounds in order. -/
theorem exists_of_next? {r r' : Unchecked} {result : Result Event}
    (h : r.next? = some (result, r')) :
    ∃ q : Reader, q.unchecked = r ∧ q.next.1 = result ∧ q.next.2.unchecked = r' := by
  have hbounded : r.buffer.Bounded := by
    rw [next?] at h
    split at h
    · cases h
    · rename_i hbytes
      exact Window.Unchecked.bounded_of_bytes? hbytes
  obtain ⟨window, hwindow⟩ := hbounded.exists_window
  have hq : (Reader.mk r.source r.deserializer window r.events).unchecked = r := by
    rw [unchecked, hwindow]
  have hnext := next?_unchecked ⟨r.source, r.deserializer, window, r.events⟩
  rw [hq, h] at hnext
  obtain ⟨hresult, hafter⟩ := Prod.mk.inj (Option.some.inj hnext)
  exact ⟨_, hq, hresult.symm, hafter.symm⟩

/-- An event uses bytes of the stream. -/
theorem ahead_of_next? {r r' : Unchecked} {event : Event} (h : r.next? = some (.ok event, r')) :
    r'.ahead < r.ahead := by
  obtain ⟨q, rfl, hresult, rfl⟩ := exists_of_next? h
  have hahead (q : Reader) : q.unchecked.ahead = q.ahead := by
    rw [Reader.ahead, Window.length_bytes]
    rfl
  rw [hahead, hahead]
  exact ahead_of_next (Prod.ext hresult rfl)

/-- Reads events until one has the property. -/
def nextUntil? (p : Event → Bool) (r : Unchecked) : Option (Result Event × Unchecked) :=
  match _h : r.next? with
  | none => none
  | some (.ok event, r') => if p event then some (.ok event, r') else nextUntil? p r'
  | some (.error error, r') => some (.error error, r')
termination_by r.ahead
decreasing_by exact ahead_of_next? _h

theorem nextUntil?_unchecked (p : Event → Bool) (r : Reader) :
    r.unchecked.nextUntil? p = some ((r.nextUntil p).1, (r.nextUntil p).2.unchecked) := by
  -- along the events that are passed over
  fun_induction Reader.nextUntil p r with
  | case1 r event r' hnext hp | case2 r event r' hnext hp ih | case3 r error r' hnext =>
    have hnext? := next?_unchecked r
    rw [hnext] at hnext?
    rw [nextUntil?]
    split <;> simp_all

/-! ### Any calls -/

/-- Closes the deserializer and releases the buffer. -/
def close (r : Unchecked) : Unchecked :=
  { r with deserializer := r.deserializer.close, buffer := r.buffer.release }

end Reader.Unchecked

open Reader (outcome)

/-- What a reader with a buffer that is not checked does with a request. -/
def Request.run? (request : Request) (r : Reader.Unchecked) : Option (Answer × Reader.Unchecked) :=
  match request with
  | search interval queries =>
    (r.nextMatch? interval (Matcher.ofQueries queries)).map
      (.map (fun result => (outcome result).map fun found => (found.event, some found.query)) id)
  | next => r.next?.map (.map (fun result => (outcome result).map (·, none)) id)
  | request =>
    (r.nextUntil? request.accepts).map (.map (fun result => (outcome result).map (·, none)) id)

theorem Request.run?_unchecked (request : Request) (r : Reader) :
    request.run? r.unchecked = some ((request.run r).1, (request.run r).2.unchecked) := by
  cases request with
  | search interval queries =>
    rw [run?, Reader.Unchecked.nextMatch?_unchecked]
    rfl
  | next =>
    rw [run?, Reader.Unchecked.next?_unchecked]
    rfl
  | _ =>
    simp only [run?, Reader.Unchecked.nextUntil?_unchecked]
    rfl

/-- The reader after a call. -/
def Call.run? : Call → Reader.Unchecked → Option Reader.Unchecked
  | read request, r => (request.run? r).map (·.2)
  | close, r => some r.close

theorem Call.run?_unchecked (call : Call) (r : Reader) :
    call.run? r.unchecked = some (call.run r).unchecked := by
  cases call with
  | read request =>
    rw [run?, Request.run?_unchecked]
    rfl
  | close => rfl

/-- The reader after several calls. -/
def Reader.Unchecked.afterCalls? (r : Unchecked) (calls : List Call) : Option Unchecked :=
  calls.foldlM (fun r call => call.run? r) r

theorem Reader.Unchecked.afterCalls?_unchecked (r : Reader) (calls : List Call) :
    r.unchecked.afterCalls? calls = some (r.afterCalls calls).unchecked := by
  induction calls generalizing r with
  | nil => rfl
  | cons call rest ih =>
    rw [afterCalls?, List.foldlM_cons, Call.run?_unchecked]
    exact ih (call.run r)

end LogCodec
