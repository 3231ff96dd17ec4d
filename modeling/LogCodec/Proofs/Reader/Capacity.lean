import LogCodec.Proofs.Reader.Refills

/-! # The buffer of a reader is bounded

    A reader holds less than one record when it reads its source, and its buffer grows only
    when that record would not fit.  So the size of the buffer is bounded by the size of the
    largest record, however long the stream is.

    * `Window.capacity_makeRoom`: how far a buffer grows.
    * `Record.exists_next_item`: what a reader holds that asks for more bytes.
    * `Reader.Kept`: the invariant.  A reader stands between two records of its stream, and
      its buffer is bounded.
    * `Reader.buffer_bounded`: this holds at all times. -/

namespace LogCodec

/-! ### Sizes of buffers -/

namespace Window

variable {c L : Nat} {w w' : Window}

/-- The buffer has the size that it had at first, or is not larger than it takes to hold so
    many bytes with room for a read. -/
def Within (c L : Nat) (w : Window) : Prop := w.capacity = max c 1 ∨ w.capacity < 2 * (L + 4096)

@[simp] theorem capacity_compact (w : Window) : w.compact.capacity = w.capacity := by
  unfold compact
  split
  · have hsize := w.stop_le_size
    exact Buffer.size_overwrite (by rw [length_bytes]; omega)
  · rfl

/-- The window is at the front of the buffer then. -/
theorem stop_compact (w : Window) : w.compact.stop = w.bytes.length := by
  unfold compact
  split
  · rfl
  · rw [length_bytes]
    omega

/-- The size of a buffer is at most doubled, and only if there is little room in it. -/
theorem capacity_grow (w : Window) :
    w.grow.capacity = w.capacity ∨ w.grow.capacity < 2 * (w.stop + lowWater) := by
  by_cases hroom : w.room < lowWater
  · right
    have hlow : 0 < lowWater := by decide
    have hcapacity : w.grow.capacity =
        w.capacity + (max (w.capacity * 2) (w.stop + lowWater) - w.capacity) := by
      rw [grow, if_pos hroom, capacity, Array.size_append, Array.size_replicate]
      rfl
    rw [room] at hroom
    omega
  · left
    rw [grow, if_neg hroom]

/-- The buffer grows only after the window was moved to its front. -/
theorem capacity_makeRoom (w : Window) :
    w.makeRoom.capacity = w.capacity ∨ w.makeRoom.capacity < 2 * (w.bytes.length + lowWater) := by
  by_cases hroom : lowWater ≤ w.room
  · left
    rw [makeRoom, if_pos hroom]
  · -- all that is in front of the bytes is free then, so `stop` counts only the bytes
    have hgrow := w.compact.capacity_grow
    rw [capacity_compact, stop_compact] at hgrow
    rw [makeRoom, if_neg hroom]
    exact hgrow

theorem capacity_fill {source source' : Source} {filled : Filled}
    (h : w.fill source = (filled, w', source')) : w'.capacity = w.makeRoom.capacity := by
  cases hr : source.read w.makeRoom.room with
  | mk reply rest =>
    obtain ⟨calls, source''⟩ := rest
    cases reply with
    | gave bytes =>
      rw [fill_of_gave hr] at h
      cases h
      have hsize := w.makeRoom.stop_le_size
      have hlength := Source.length_of_read_gave hr
      rw [room, capacity] at hlength
      exact Buffer.size_overwrite (by omega)
    | failed reason =>
      rw [fill_of_failed hr] at h
      cases h
      rfl

/-- A window that holds few bytes stays within the bound when it is filled. -/
theorem Within.fill {source source' : Source} {filled : Filled} (h : w.Within c L)
    (hlength : w.bytes.length < L) (hf : w.fill source = (filled, w', source')) :
    w'.Within c L := by
  have hcapacity := capacity_fill hf
  rw [Within, hcapacity]
  rcases w.capacity_makeRoom with hsame | hlt
  · rw [hsame]
    exact h
  · right
    have hlow : lowWater = 4096 := rfl
    omega

end Window

/-! ### Items of a stream -/

/-- Bytes at the front of an item and what follows it, which do not hold all of the item. -/
theorem exists_rest_of_prefix {bytes item tail : Bytes} (hbegins : bytes <+: item ++ tail)
    (h : ∀ more, bytes ≠ item ++ more) : ∃ more, item = bytes ++ more ∧ more ≠ [] := by
  rcases List.prefix_or_prefix_of_prefix hbegins (List.prefix_append ..) with hle | hge
  · obtain ⟨more, hmore⟩ := hle
    refine ⟨more, hmore.symm, ?_⟩
    intro hnil
    apply h []
    rw [← hmore, hnil, List.append_nil, List.append_nil]
  · obtain ⟨more, hmore⟩ := hge
    exact absurd hmore.symm (h more)

namespace Record

variable {w : Width} {bytes rest : Bytes} {todo used : List Bytes}

/-- Where bytes are asked for that follow in a stream of records, a part of the next record
    was given, or nothing. -/
theorem exists_next_item (htodo : ∀ record ∈ todo, Framed w record)
    (hbegins : bytes <+: todo.flatten ++ [0x00]) (h : front w bytes = .incomplete) :
    ∃ item others more, todo ++ [[0x00]] = item :: others ∧ item = bytes ++ more ∧
      more ≠ [] := by
  cases todo with
  | nil =>
    -- the tag of the end is complete by itself
    have hbytes : bytes = [] := by
      obtain ⟨more, hmore⟩ := hbegins
      cases bytes with
      | nil => rfl
      | cons b bytes =>
        obtain ⟨rfl, -⟩ := List.cons.inj hmore
        cases h
    subst hbytes
    exact ⟨[0x00], [], [0x00], rfl, rfl, List.cons_ne_nil _ _⟩
  | cons record todo =>
    have hframed := htodo record (List.mem_cons_self ..)
    have hno (more : Bytes) : bytes ≠ record ++ more := by
      intro hbytes
      obtain ⟨r, hfront⟩ := hframed.front_append more
      rw [hbytes, hfront] at h
      cases h
    rw [List.flatten_cons, List.append_assoc] at hbegins
    obtain ⟨more, hrecord, hmore⟩ := exists_rest_of_prefix hbegins hno
    exact ⟨record, todo ++ [[0x00]], more, rfl, hrecord, hmore⟩

/-- Records that were used from a stream of records are the first ones of it. -/
theorem exists_todo (hused : ∀ record ∈ used, Framed w record)
    (htodo : ∀ record ∈ todo, Framed w record)
    (hbegins : used.flatten ++ rest <+: todo.flatten ++ [0x00]) :
    ∃ todo', todo = used ++ todo' ∧ rest <+: todo'.flatten ++ [0x00] := by
  -- one record of both at a time: no record begins with another one
  induction used generalizing todo with
  | nil => exact ⟨todo, rfl, hbegins⟩
  | cons record used ih =>
    have hframed := hused record (List.mem_cons_self ..)
    rw [List.flatten_cons, List.append_assoc] at hbegins
    cases todo with
    | nil =>
      -- no record starts with the tag of the end
      obtain ⟨more, hmore⟩ := hbegins
      cases hframed with
      | intro => cases hmore
    | cons record' todo =>
      have hframed' := htodo record' (List.mem_cons_self ..)
      rw [List.flatten_cons, List.append_assoc] at hbegins
      have hsame : record = record' := by
        obtain ⟨more, hmore⟩ := hbegins
        rw [List.append_assoc] at hmore
        exact hframed.unique hframed' hmore
      subst hsame
      obtain ⟨todo', rfl, hrest⟩ := ih (fun r hr => hused r (List.mem_cons_of_mem _ hr))
        (fun r hr => htodo r (List.mem_cons_of_mem _ hr))
        ((List.prefix_append_right_inj record).1 hbegins)
      exact ⟨todo', rfl, hrest⟩

end Record

theorem Deserializer.front_of_step_incomplete {d : Deserializer} {bytes : Bytes}
    (h : d.step bytes = .stop .incomplete d) :
    d.closed = false ∧ Record.front d.width bytes = .incomplete := by
  unfold step at h
  split at h
  · cases h
  rename_i hclosed
  split at h
  · cases h
  split at h
  · cases h
  · cases h
  · cases h
  · rename_i hfront
    exact ⟨Bool.eq_false_iff.2 hclosed, hfront⟩

/-! ### Readers between two records -/

/-- A read of the source that is due.  The window holds a part of the next item, maybe
    nothing, and its buffer is bounded before and after the read. -/
structure Refill.Due (items : List Bytes) (c L : Nat) (x : Refill) : Prop where
  needed : ∃ front item back more, items = front ++ item :: back ∧
    x.before.streamOffset = front.flatten.length ∧ item = x.before.bytes ++ more ∧ more ≠ []
  before : x.before.Within c L
  after : x.after.Within c L

/-- A read is due where a part of the next item stands in a bounded buffer.  As the part is
    shorter than the item, the buffer need not grow beyond the bound. -/
theorem Refill.due_of_fill {items : List Bytes} {c L : Nat} {source source' : Source}
    {window window' : Window} {filled : Window.Filled}
    (hL : ∀ item ∈ items, item.length ≤ L) (hwithin : window.Within c L)
    (hf : window.fill source = (filled, window', source'))
    (hneeded : ∃ front item back more, items = front ++ item :: back ∧
      window.streamOffset = front.flatten.length ∧ item = window.bytes ++ more ∧ more ≠ []) :
    Due items c L ⟨window, window'⟩ := by
  have hlength : window.bytes.length < L := by
    obtain ⟨front, item, back, more, hitems, -, hitem, hmore⟩ := hneeded
    have hle := hL item (hitems ▸ List.mem_append_right _ (List.mem_cons_self ..))
    have hpos := List.length_pos_iff.2 hmore
    rw [hitem, List.length_append] at hle
    omega
  exact ⟨hneeded, hwithin, hwithin.fill hlength hf⟩

namespace Reader

/-- The reader stands between two records of a stream, and what it has still to read is the
    front of the rest. -/
structure Stands (preamble : Bytes) (records : List Bytes) (w : Width) (r : Reader) : Prop where
  width : r.deserializer.width = w
  place : ∃ done todo, records = done ++ todo ∧
    r.window.streamOffset = (preamble :: done).flatten.length ∧
    r.pending <+: todo.flatten ++ [0x00]

/-- The invariant of a reader that was not closed. -/
structure Kept (preamble : Bytes) (records : List Bytes) (w : Width) (c L : Nat) (r : Reader) :
    Prop where
  stands : r.Stands preamble records w
  closed : r.deserializer.closed = false
  within : r.window.Within c L

section

variable {preamble : Bytes} {records : List Bytes} {w : Width} {c L : Nat} {r r' : Reader}
  (hrecords : ∀ record ∈ records, Record.Framed w record)

include hrecords

theorem Stands.of_uses (h : r.Stands preamble records w) (huses : r.Uses r') :
    r'.Stands preamble records w := by
  obtain ⟨hwidth, done, todo, hsplit, hoffset, hpending⟩ := h
  obtain ⟨hsource, hwidth', -, size, hsize, hwindow, used, hused, hbytes⟩ := huses
  -- what was pending is what was used and what is pending now
  have hlength : used.flatten.length = size := by
    rw [← hbytes, List.length_take, Nat.min_eq_left hsize]
  have hsplitPending : r.pending = used.flatten ++ r'.pending := by
    rw [pending, pending, hwindow, Window.bytes_consume, hsource, ← hbytes, ← List.append_assoc,
      List.take_append_drop]
  rw [hsplitPending] at hpending
  rw [hwidth] at hused
  obtain ⟨todo', rfl, hrest⟩ := Record.exists_todo hused
    (fun record hrecord => hrecords record (hsplit ▸ List.mem_append_right _ hrecord)) hpending
  refine ⟨hwidth'.trans hwidth, done ++ used, todo', ?_, ?_, hrest⟩
  · rw [hsplit, List.append_assoc]
  · rw [hwindow, Window.streamOffset_consume, hoffset, ← hlength]
    simp only [List.flatten_cons, List.flatten_append, List.length_append, Nat.add_assoc]

omit hrecords in
theorem Stands.of_fill {filled : Window.Filled} {window : Window} {source : Source}
    (h : r.Stands preamble records w) (hf : r.window.fill r.source = (filled, window, source)) :
    Stands preamble records w { r with window := window, source := source } := by
  obtain ⟨hwidth, done, todo, hsplit, hoffset, hpending⟩ := h
  have hrefills := Window.refills_of_fill hf
  refine ⟨hwidth, done, todo, hsplit, hrefills.offset.trans hoffset, ?_⟩
  rw [pending, hrefills.bytes]
  exact hpending

/-- A reader that asks for more bytes holds a part of the next record. -/
theorem Stands.exists_item (h : r.Stands preamble records w)
    (hasks : r.deserializer.step r.window.bytes = .stop .incomplete r.deserializer) :
    ∃ front item back more, preamble :: records ++ [[0x00]] = front ++ item :: back ∧
      r.window.streamOffset = front.flatten.length ∧ item = r.window.bytes ++ more ∧
      more ≠ [] := by
  obtain ⟨hwidth, done, todo, hsplit, hoffset, hpending⟩ := h
  obtain ⟨-, hfront⟩ := Deserializer.front_of_step_incomplete hasks
  rw [hwidth] at hfront
  obtain ⟨item, back, more, hitems, hitem, hmore⟩ := Record.exists_next_item
    (fun record hrecord => hrecords record (hsplit ▸ List.mem_append_right _ hrecord))
    ((List.prefix_append ..).trans hpending) hfront
  refine ⟨preamble :: done, item, back, more, ?_, hoffset, hitem, hmore⟩
  rw [← hitems, hsplit, List.cons_append, List.cons_append, List.append_assoc]

/-- Using records does not change the buffer. -/
theorem Kept.of_uses (h : r.Kept preamble records w c L) (huses : r.Uses r') :
    r'.Kept preamble records w c L := by
  have hstands := h.stands.of_uses hrecords huses
  obtain ⟨-, -, hclosed, size, hsize, hwindow, -⟩ := huses
  refine ⟨hstands, hclosed.trans h.closed, ?_⟩
  rw [hwindow]
  exact h.within

variable (hL : ∀ item ∈ preamble :: records ++ [[0x00]], item.length ≤ L)

include hL

/-- **One read** is due, and keeps the invariant. -/
theorem Kept.fill {filled : Window.Filled} {window : Window} {source : Source}
    (h : r.Kept preamble records w c L)
    (hasks : r.deserializer.step r.window.bytes = .stop .incomplete r.deserializer)
    (hf : r.window.fill r.source = (filled, window, source)) :
    Refill.Due (preamble :: records ++ [[0x00]]) c L ⟨r.window, window⟩ ∧
      Kept preamble records w c L { r with window := window, source := source } := by
  have hdue := Refill.due_of_fill hL h.within hf (h.stands.exists_item hrecords hasks)
  exact ⟨hdue, h.stands.of_fill hf, h.closed, hdue.after⟩

/-- **All steps** keep the invariant. -/
theorem Steps.kept {refills : List Refill} (hsteps : r.Steps refills r')
    (h : r.Kept preamble records w c L) :
    (∀ x ∈ refills, x.Due (preamble :: records ++ [[0x00]]) c L) ∧
      r'.Kept preamble records w c L := by
  -- records are used before each read, so the read finds a part of one record alone
  induction hsteps with
  | use huses => exact ⟨fun _ hx => absurd hx List.not_mem_nil, h.of_uses hrecords huses⟩
  | fill huses hasks hfill _ ih =>
    obtain ⟨hdue, hkept⟩ := (h.of_uses hrecords huses).fill hrecords hL hasks hfill
    obtain ⟨hrest, hend⟩ := ih hkept
    exact ⟨List.forall_mem_cons.2 ⟨hdue, hrest⟩, hend⟩

end

/-! ### Opening -/

section

variable {preamble tail : Bytes} {d : Deserializer}
  (hpreamble : Deserializer.ofBytes preamble = .ok (d, preamble.length))

include hpreamble

theorem ofBytes_preamble_append (more : Bytes) :
    Deserializer.ofBytes (preamble ++ more) = .ok (d, preamble.length) := by
  have halike := ofBytes_append (by rw [hpreamble]; simp) more
  rwa [hpreamble, Result.alike_ok_iff] at halike

/-- A preamble that is not read holds only a part of it. -/
theorem exists_of_ofBytes_incomplete {bytes : Bytes} (hbegins : bytes <+: preamble ++ tail)
    (h : Deserializer.ofBytes bytes = .error .incomplete) :
    ∃ more, preamble = bytes ++ more ∧ more ≠ [] := by
  apply exists_rest_of_prefix hbegins
  intro more hbytes
  rw [hbytes, ofBytes_preamble_append hpreamble] at h
  cases h

/-- What is read as a preamble at the front of the stream is its preamble. -/
theorem exists_of_ofBytes_ok {bytes : Bytes} {d' : Deserializer} {size : Nat}
    (hbegins : bytes <+: preamble ++ tail) (h : Deserializer.ofBytes bytes = .ok (d', size)) :
    d' = d ∧ size = preamble.length ∧ ∃ more, bytes = preamble ++ more := by
  have hsize := Deserializer.size_of_ofBytes h
  -- both are what is read from the whole stream
  have hwhole : Deserializer.ofBytes (preamble ++ tail) = .ok (d', size) := by
    obtain ⟨more, hmore⟩ := hbegins
    have halike := ofBytes_append (by rw [h]; simp) more
    rwa [h, Result.alike_ok_iff, hmore] at halike
  rw [ofBytes_preamble_append hpreamble] at hwhole
  cases hwhole
  refine ⟨rfl, rfl, ?_⟩
  obtain ⟨more, hmore⟩ := List.prefix_of_prefix_length_le (List.prefix_append ..) hbegins hsize
  exact ⟨more, hmore.symm⟩

variable {records : List Bytes} {c L : Nat}
  (hL : ∀ item ∈ preamble :: records ++ [[0x00]], item.length ≤ L)

include hL

/-- A read for the rest of the preamble is due. -/
theorem due_of_ofBytes_incomplete {source source' : Source} {window window' : Window}
    {filled : Window.Filled} (hoffset : window.streamOffset = 0)
    (hbegins : window.bytes <+: preamble ++ tail) (hwithin : window.Within c L)
    (h : Deserializer.ofBytes window.bytes = .error .incomplete)
    (hf : window.fill source = (filled, window', source')) :
    Refill.Due (preamble :: records ++ [[0x00]]) c L ⟨window, window'⟩ := by
  obtain ⟨more, hitem, hmore⟩ := exists_of_ofBytes_incomplete hpreamble hbegins h
  exact Refill.due_of_fill hL hwithin hf
    ⟨[], preamble, records ++ [[0x00]], more, rfl, hoffset, hitem, hmore⟩

/-- **The reads of a reader that is opened** are due, and then the invariant holds. -/
theorem kept_of_openWith {source : Source} {window : Window} (hoffset : window.streamOffset = 0)
    (hbegins : window.bytes ++ source.data <+: preamble ++ (records.flatten ++ [0x00]))
    (hwithin : window.Within c L) :
    (∀ x ∈ openRefills source window, x.Due (preamble :: records ++ [[0x00]]) c L) ∧
      ∀ r, openWith source window = .ok r → r.Kept preamble records d.width c L := by
  have hfront : window.bytes <+: preamble ++ (records.flatten ++ [0x00]) :=
    (List.prefix_append ..).trans hbegins
  -- along the reads of the source
  fun_induction openWith source window with
  | case1 source window d' size hp =>
    rw [openRefills_of_settled (by rw [hp]; simp)]
    refine ⟨fun _ hx => absurd hx List.not_mem_nil, ?_⟩
    intro r hr
    cases hr
    obtain ⟨rfl, rfl, more, hmore⟩ := exists_of_ofBytes_ok hpreamble hfront hp
    have hclosed : d'.closed = false := (Deserializer.live_of_ofBytes hp).closed
    refine ⟨⟨rfl, [], records, rfl, ?_, ?_⟩, hclosed, hwithin⟩
    · rw [Window.streamOffset_consume, hoffset, List.flatten_singleton, Nat.zero_add]
    · rw [hmore, List.append_assoc] at hbegins
      rw [pending, Window.bytes_consume, hmore, List.drop_left]
      exact (List.prefix_append_right_inj preamble).1 hbegins
  | case2 source window hp window' source' hf ih =>
    have hdue := due_of_ofBytes_incomplete hpreamble hL hoffset hfront hwithin hp hf
    have hrefills := Window.refills_of_fill hf
    rw [← hrefills.bytes] at hbegins
    obtain ⟨hrest, hkept⟩ := ih (hrefills.offset.trans hoffset) hbegins hdue.after
      ((List.prefix_append ..).trans hbegins)
    rw [openRefills_of_incomplete hp hf, if_pos rfl]
    exact ⟨List.forall_mem_cons.2 ⟨hdue, hrest⟩, hkept⟩
  | case3 source window hp window' source' hf
  | case4 source window hp window' source' reason hf =>
    have hdue := due_of_ofBytes_incomplete hpreamble hL hoffset hfront hwithin hp hf
    rw [openRefills_of_incomplete hp hf, if_neg (by simp)]
    refine ⟨List.forall_mem_singleton.2 hdue, ?_⟩
    intro r hr
    cases hr
  | case5 source window error hne hp =>
    rw [openRefills_of_settled (by rw [hp]; simpa using hne)]
    refine ⟨fun _ hx => absurd hx List.not_mem_nil, ?_⟩
    intro r hr
    cases hr

end

/-! ### Calls -/

section

variable {r r' : Reader}

/-- A closed reader does not read its source, and stays closed. -/
theorem Steps.of_closed {refills : List Refill} (hsteps : r.Steps refills r')
    (h : r.deserializer.closed = true) :
    refills = [] ∧ r'.deserializer.closed = true ∧ r'.window.capacity = r.window.capacity := by
  cases hsteps with
  | use huses =>
    obtain ⟨-, -, hclosed, size, hsize, hwindow, -⟩ := huses
    refine ⟨rfl, hclosed.trans h, ?_⟩
    rw [hwindow]
    rfl
  | fill huses hasks _ _ =>
    -- only an open reader asks for more
    obtain ⟨hopen, -⟩ := Deserializer.front_of_step_incomplete hasks
    rw [huses.closed, h] at hopen
    cases hopen

/-- Whatever a closed reader is asked for, it has no buffer. -/
theorem afterCalls_of_closed (h : r.deserializer.closed = true) (hcapacity : r.window.capacity = 0)
    (calls : List Call) : r.callRefills calls = [] ∧ (r.afterCalls calls).window.capacity = 0 := by
  induction calls generalizing r with
  | nil => exact ⟨rfl, hcapacity⟩
  | cons call rest ih =>
    cases call with
    | read request =>
      obtain ⟨hrefills, hclosed, hsame⟩ := (request_steps request r).of_closed h
      obtain ⟨hrest, hend⟩ := ih hclosed (hsame.trans hcapacity)
      refine ⟨?_, hend⟩
      show request.refills r ++ _ = []
      rw [hrefills]
      exact hrest
    | close => exact ih rfl rfl

/-- **Several calls.**  All reads are due.  The buffer is bounded, and it is gone once the
    reader was closed. -/
theorem Kept.afterCalls {preamble : Bytes} {records : List Bytes} {w : Width} {c L : Nat}
    (hrecords : ∀ record ∈ records, Record.Framed w record)
    (hL : ∀ item ∈ preamble :: records ++ [[0x00]], item.length ≤ L)
    (h : r.Kept preamble records w c L) (calls : List Call) :
    (∀ x ∈ r.callRefills calls, x.Due (preamble :: records ++ [[0x00]]) c L) ∧
      (.close ∈ calls → (r.afterCalls calls).window.capacity = 0) ∧
      (.close ∉ calls → (r.afterCalls calls).window.Within c L) := by
  induction calls generalizing r with
  | nil =>
    refine ⟨fun _ hx => absurd hx List.not_mem_nil, fun hclose => ?_, fun _ => h.within⟩
    exact absurd hclose List.not_mem_nil
  | cons call rest ih =>
    cases call with
    | read request =>
      obtain ⟨hdue, hkept⟩ := (request_steps request r).kept hrecords hL h
      obtain ⟨hrest, hgone, hwithin⟩ := ih hkept
      refine ⟨?_, ?_, ?_⟩
      · intro x hx
        rcases List.mem_append.1 hx with hx | hx
        · exact hdue x hx
        · exact hrest x hx
      · intro hclose
        rcases List.mem_cons.1 hclose with hread | hclose
        · cases hread
        · exact hgone hclose
      · intro hclose
        exact hwithin fun hmem => hclose (List.mem_cons_of_mem _ hmem)
    | close =>
      -- the calls that follow find a closed reader
      have hclosed : r.close.deserializer.closed = true := rfl
      obtain ⟨hnone, hend⟩ := afterCalls_of_closed hclosed rfl rest
      refine ⟨?_, fun _ => hend, fun hclose => absurd (List.mem_cons_self ..) hclose⟩
      intro x hx
      have hx : x ∈ r.close.callRefills rest := hx
      rw [hnone] at hx
      exact absurd hx List.not_mem_nil

end

/-- **The buffer of a reader is bounded by the largest record.**  Let a source give the front
    of a well-formed stream, in whatever chunks and with whatever failures: a preamble and
    records of at most `L` bytes each, and the tag of the end.  Whenever a reader reads its
    source, its window holds a part of the next item, which is not complete.  The buffer has
    the size that it had at first, or one below `2 * (L + 4096)`, and none once the reader was
    closed. -/
theorem buffer_bounded {source : Source} {preamble : Bytes} {records : List Bytes}
    {d : Deserializer} {L : Nat}
    (hpreamble : Deserializer.ofBytes preamble = .ok (d, preamble.length))
    (hrecords : ∀ record ∈ records, Record.Framed d.width record)
    (hsource : source.data <+: preamble ++ (records.flatten ++ [0x00]))
    (hL : ∀ item ∈ preamble :: records, item.length ≤ L) (capacity : Nat) :
    (∀ x ∈ openRefills source (Window.empty capacity),
        x.Due (preamble :: records ++ [[0x00]]) capacity L) ∧
      ∀ r, Reader.open source capacity = .ok r →
        source.roomsTo r.source =
            (openRefills source (Window.empty capacity)).map Refill.room ∧
          ∀ calls : List Call,
            (∀ x ∈ r.callRefills calls, x.Due (preamble :: records ++ [[0x00]]) capacity L) ∧
              r.source.roomsTo (r.afterCalls calls).source =
                (r.callRefills calls).map Refill.room ∧
              (.close ∈ calls → (r.afterCalls calls).window.capacity = 0) ∧
              (.close ∉ calls → (r.afterCalls calls).window.Within capacity L) := by
  have hpos : 0 < preamble.length := by
    cases preamble with
    | nil => cases hpreamble
    | cons b preamble => exact Nat.succ_pos _
  have hitems : ∀ item ∈ preamble :: records ++ [[0x00]], item.length ≤ L := by
    intro item hitem
    rcases List.mem_append.1 hitem with hitem | hend
    · exact hL item hitem
    · -- the tag of the end is no longer than the preamble
      rw [List.mem_singleton.1 hend]
      exact Nat.le_trans hpos (hL preamble (List.mem_cons_self ..))
  have hwithin : (Window.empty capacity).Within capacity L := by
    left
    rw [Window.capacity, Window.empty, Array.size_replicate]
  have hbegins : (Window.empty capacity).bytes ++ source.data <+:
      preamble ++ (records.flatten ++ [0x00]) := by
    rw [Window.bytes_empty, List.nil_append]
    exact hsource
  obtain ⟨hdue, hopened⟩ := kept_of_openWith hpreamble hitems rfl hbegins hwithin
  refine ⟨hdue, ?_⟩
  intro r hr
  refine ⟨?_, ?_⟩
  · rw [source_of_openWith hr, Source.roomsTo_after]
  · intro calls
    obtain ⟨hcalls, hgone, hbounded⟩ := (hopened r hr).afterCalls hrecords hitems calls
    exact ⟨hcalls, roomsTo_afterCalls r calls, hgone, hbounded⟩

/-- A stream of one record that is cut short, read three bytes at a time into a buffer that has
    room for one byte at first. -/
theorem buffer_bounded_cut :
    let preamble : Bytes := [0xFD, 0x2F, 0xB5, 0x29, 8, 1, 0, 2, 0x7B, 0x7D]
    let record : Bytes :=
      [1, 0, 0, 0, 1, 0x41, 0, 0, 0, 0, 0, 0, 0, 0, 0, 0, 0, 0, 0, 0, 0, 0, 0, 0, 0, 7]
    let source := Source.inChunks 3 (preamble ++ record.take 20)
    let d := Deserializer.ofPreamble ⟨.eightByte, ⟨"", "", ""⟩, 0⟩
    Deserializer.ofBytes preamble = .ok (d, preamble.length) ∧
      (∀ r ∈ [record], Record.Framed d.width r) ∧
      source.data <+: preamble ++ ([record].flatten ++ [0x00]) ∧
      (∀ item ∈ [preamble, record], item.length ≤ 26) ∧
      ∃ r, Reader.open source 0 = .ok r ∧
        (∀ x ∈ r.callRefills [.read .next], x.Due [preamble, record, [0x00]] 0 26) ∧
        (r.afterCalls [.read .next]).window.Within 0 26 ∧
        (r.afterCalls [.read .next, .close]).window.capacity = 0 := by
  intro preamble record source d
  have hpreamble : Deserializer.ofBytes preamble = .ok (d, preamble.length) := by decide +kernel
  have hrecords : ∀ r ∈ [record], Record.Framed d.width r := by
    have hwritten : Record.toBytes (w := .eightByte) ⟨⟨[0x41], [], [], []⟩, 7⟩ = .ok record := by
      decide +kernel
    intro r hr
    rw [List.mem_singleton.1 hr]
    exact Record.framed_iff.2 ⟨_, hwritten⟩
  have hsource : source.data <+: preamble ++ ([record].flatten ++ [0x00]) := by decide
  have hL : ∀ item ∈ [preamble, record], item.length ≤ 26 := by decide
  have hsteady : source.Steady := Source.steady_inChunks (by decide) _
  have hopen := open_answers hsteady 0
  have hwhole : Deserializer.ofBytes source.data = .ok (d, preamble.length) :=
    ofBytes_preamble_append hpreamble _
  rw [hwhole] at hopen
  obtain ⟨r, hr, -⟩ := hopen
  obtain ⟨-, hcalls⟩ := buffer_bounded hpreamble hrecords hsource hL 0
  obtain ⟨-, hcalls⟩ := hcalls r hr
  obtain ⟨hdue, -, -, hwithin⟩ := hcalls [.read .next]
  obtain ⟨-, -, hgone, -⟩ := hcalls [.read .next, .close]
  exact ⟨hpreamble, hrecords, hsource, hL, r, hr, hdue, hwithin (by simp), hgone (by simp)⟩

end Reader

end LogCodec
