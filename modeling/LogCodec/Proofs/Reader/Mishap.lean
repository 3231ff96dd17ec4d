import LogCodec.Proofs.Reader.Pending
import LogCodec.Proofs.Stream.Account

/-! # Mishaps of sources

    A source may fail in a read, or give nothing although there is more, and go on
    later.  The rooms that it was offered tell what happened in its reads.

    * `Source.Mishap`: what may go wrong in a read.
    * `Reader.mishap?`: what went wrong first on the way from one reader to another.
    * `Reader.Level`: readers at the same place of the same stream.
    * `Reader.PassesWhole`: a reader is taken past whole records. -/

namespace LogCodec

/-! ### Mishaps -/

namespace Source

/-- What may go wrong in a read for the time being. -/
inductive Mishap where
  | failed (reason : String)
  /-- Nothing is given although there is more. -/
  | nothing

/-- How a reader reports it. -/
def Mishap.error : Mishap → Error
  | failed reason => .io reason
  | nothing => .incomplete

/-- What went wrong in a read that leaves these bytes. -/
def Reply.mishap? (left : Bytes) : Reply → Option Mishap
  | failed reason => some (.failed reason)
  | gave bytes => if bytes = [] ∧ left ≠ [] then some .nothing else none

/-- The first thing that goes wrong in reads with these rooms. -/
def mishap? (s : Source) : (rooms : List Nat) → Option Mishap
  | [] => none
  | room :: rooms =>
    ((s.read room).1.mishap? (s.read room).2.2.data).or ((s.read room).2.2.mishap? rooms)

/-- The rooms that were offered on the way to a later state of the source. -/
def roomsTo (s s' : Source) : List Nat :=
  (s'.offered.take (s'.offered.length - s.offered.length)).reverse

variable {s : Source}

theorem after_append (s : Source) (rooms rooms' : List Nat) :
    s.after (rooms ++ rooms') = (s.after rooms).after rooms' := by
  induction rooms generalizing s with
  | nil => rfl
  | cons room rooms ih => exact ih _

theorem mishap?_append (s : Source) (rooms rooms' : List Nat) :
    s.mishap? (rooms ++ rooms') = (s.mishap? rooms).or ((s.after rooms).mishap? rooms') := by
  induction rooms generalizing s with
  | nil => rfl
  | cons room rooms ih =>
    rw [List.cons_append, mishap?, mishap?, ih, Option.or_assoc]
    rfl

theorem offered_read (s : Source) (room : Nat) :
    (s.read room).2.2.offered = room :: s.offered := by
  unfold read
  dsimp only
  split
  · rfl
  · split <;> rfl

theorem offered_after (s : Source) (rooms : List Nat) :
    (s.after rooms).offered = rooms.reverse ++ s.offered := by
  induction rooms generalizing s with
  | nil => rfl
  | cons room rooms ih =>
    rw [after, ih, offered_read, List.reverse_cons, List.append_assoc, List.singleton_append]

/-- What a source was offered is seen afterwards. -/
theorem roomsTo_after (s : Source) (rooms : List Nat) : s.roomsTo (s.after rooms) = rooms := by
  have hlength : (s.after rooms).offered.length - s.offered.length = rooms.reverse.length := by
    rw [offered_after, List.length_append, Nat.add_sub_cancel]
  rw [roomsTo, hlength, offered_after, List.take_left, List.reverse_reverse]

/-- Nothing goes wrong with a steady source. -/
theorem SteadyToEnd.mishap?_eq_none (h : s.SteadyToEnd) {rooms : List Nat}
    (hrooms : ∀ room ∈ rooms, 0 < room) : s.mishap? rooms = none := by
  induction rooms generalizing s with
  | nil => rfl
  | cons room rooms ih =>
    have hroom := hrooms room (List.mem_cons_self ..)
    have hrest := ih (h.read hroom) fun r hr => hrooms r (List.mem_cons_of_mem _ hr)
    obtain ⟨bytes, calls, s', hread, hnil⟩ := h.gives room hroom
    rw [hread] at hrest
    rw [mishap?, hread, hrest, Option.or_none, Reply.mishap?, if_neg]
    rintro ⟨rfl, hleft⟩
    -- all bytes were given before
    have hdata := data_of_read_gave hread
    rw [hnil rfl, List.nil_append] at hdata
    exact hleft hdata.symm

end Source

open Source (Mishap)

/-- What went wrong when the window was filled from a source that has these bytes left. -/
def Window.Filled.mishap? (left : Bytes) : Window.Filled → Option Mishap
  | more => none
  | exhausted => if left = [] then none else some .nothing
  | failed reason => some (.failed reason)

/-- Filling the window is one read. -/
theorem Window.read_of_fill {w w' : Window} {source source' : Source} {filled : Filled}
    (h : w.fill source = (filled, w', source')) :
    source' = source.after [w.makeRoom.room] ∧
      source.mishap? [w.makeRoom.room] = filled.mishap? source'.data := by
  simp only [Source.after, Source.mishap?, Option.or_none]
  cases hr : source.read w.makeRoom.room with
  | mk reply rest =>
    obtain ⟨calls, source''⟩ := rest
    cases reply with
    | gave bytes =>
      rw [fill_of_gave hr] at h
      cases h
      refine ⟨rfl, ?_⟩
      by_cases hbytes : bytes = []
      · by_cases hleft : source'.data = [] <;>
          simp [Source.Reply.mishap?, Filled.mishap?, hbytes, hleft]
      · simp [Source.Reply.mishap?, Filled.mishap?, hbytes]
    | failed reason =>
      rw [fill_of_failed hr] at h
      cases h
      exact ⟨rfl, rfl⟩

/-- A window is not filled if the source gave nothing. -/
theorem Window.gave_nil_of_fill_exhausted {w w' : Window} {source source' : Source}
    (h : w.fill source = (.exhausted, w', source')) :
    ∃ calls, source.read w.makeRoom.room = (.gave [], calls, source') := by
  cases hr : source.read w.makeRoom.room with
  | mk reply rest =>
    obtain ⟨calls, source''⟩ := rest
    cases reply with
    | gave bytes =>
      rw [fill_of_gave hr] at h
      by_cases hbytes : bytes = []
      · rw [if_pos hbytes] at h
        cases h
        exact ⟨calls, by rw [hbytes]⟩
      · rw [if_neg hbytes] at h
        cases h
    | failed reason =>
      rw [fill_of_failed hr] at h
      cases h

/-- A read that gives nothing moves nothing. -/
theorem Window.data_eq_of_fill_exhausted {w w' : Window} {source source' : Source}
    (h : w.fill source = (.exhausted, w', source')) : source.data = source'.data := by
  obtain ⟨_, hr⟩ := gave_nil_of_fill_exhausted h
  rw [Source.data_of_read_gave hr, List.nil_append]

namespace Reader

/-- What went wrong first in the reads on the way from one reader to another. -/
def mishap? (r r' : Reader) : Option Mishap :=
  r.source.mishap? (r.source.roomsTo r'.source)

/-- Some reads lead from one reader to the other, and this went wrong in them. -/
def Meets (r : Reader) (m : Option Mishap) (r' : Reader) : Prop :=
  ∃ rooms : List Nat, (∀ room ∈ rooms, 0 < room) ∧ r'.source = r.source.after rooms ∧
    r.source.mishap? rooms = m

section

variable {r r' r'' : Reader} {m : Option Mishap}

theorem Meets.mishap?_eq (h : r.Meets m r') : r.mishap? r' = m := by
  obtain ⟨rooms, -, hafter, hm⟩ := h
  rw [mishap?, hafter, Source.roomsTo_after, hm]

theorem Meets.of_source_eq (h : r'.source = r.source) : r.Meets none r' :=
  ⟨[], fun _ h => absurd h List.not_mem_nil, h, rfl⟩

theorem Meets.trans (h : r.Meets none r') (h' : r'.Meets m r'') : r.Meets m r'' := by
  obtain ⟨rooms, hpos, hafter, hnone⟩ := h
  obtain ⟨rooms', hpos', hafter', hm⟩ := h'
  refine ⟨rooms ++ rooms', ?_, ?_, ?_⟩
  · intro room hroom
    rcases List.mem_append.1 hroom with hroom | hroom
    · exact hpos room hroom
    · exact hpos' room hroom
  · rw [hafter', hafter, Source.after_append]
  · rw [Source.mishap?_append, hnone, Option.none_or, ← hafter, hm]

theorem Meets.eq_none (h : r.Meets m r') (hsteady : r.source.SteadyToEnd) : m = none := by
  obtain ⟨rooms, hpos, -, hm⟩ := h
  rw [← hm, hsteady.mishap?_eq_none hpos]

theorem Meets.steady (h : r.Meets m r') (hsteady : r.source.SteadyToEnd) :
    r'.source.SteadyToEnd := by
  obtain ⟨rooms, hpos, hafter, -⟩ := h
  intro rooms' hpos'
  rw [hafter, ← Source.after_append]
  apply hsteady
  intro room hroom
  rcases List.mem_append.1 hroom with hroom | hroom
  · exact hpos room hroom
  · exact hpos' room hroom

/-- Filling the window. -/
theorem meets_fill {filled : Window.Filled} {window window' : Window} {source : Source}
    (h : window.fill r.source = (filled, window', source)) (hr' : r'.source = source) :
    r.Meets (filled.mishap? source.data) r' := by
  obtain ⟨hafter, hm⟩ := Window.read_of_fill h
  refine ⟨[window.makeRoom.room], ?_, hr'.trans hafter, hm⟩
  intro room hroom
  rw [List.mem_singleton.1 hroom]
  exact window.room_makeRoom_pos

end

/-! ### Readers at the same place -/

/-- The readers differ only in their buffers and in how their sources go on. -/
structure Level (r q : Reader) : Prop where
  deserializer : r.deserializer = q.deserializer
  pending : r.pending = q.pending
  offset : r.window.streamOffset = q.window.streamOffset
  events : r.events = q.events

/-- The first reader was taken past these records, and their bytes were used up. -/
structure Passes {w : Width} (r : Reader) (records : List (Record w)) (r' : Reader) : Prop where
  bytes : ∃ used, Record.Spells records used ∧ r.pending = used ++ r'.pending ∧
    r'.window.streamOffset = r.window.streamOffset + used.length
  width : r'.deserializer.width = w
  running : r'.deserializer.running = w.timeAfter r.deserializer.running records

/-- The first reader was taken past some records, and no further. -/
def PassesWhole (r r' : Reader) : Prop :=
  ∃ records : List (Record r.deserializer.width), r.Passes records r'

section

variable {r q s : Reader}

theorem Level.refl (r : Reader) : r.Level r := ⟨rfl, rfl, rfl, rfl⟩

theorem Level.symm (h : r.Level q) : q.Level r :=
  ⟨h.deserializer.symm, h.pending.symm, h.offset.symm, h.events.symm⟩

theorem Level.trans (h : r.Level q) (h' : q.Level s) : r.Level s :=
  ⟨h.deserializer.trans h'.deserializer, h.pending.trans h'.pending, h.offset.trans h'.offset,
    h.events.trans h'.events⟩

/-- Filling the window does not take a reader further. -/
theorem level_fill {filled : Window.Filled} {window : Window} {source : Source}
    (h : r.window.fill r.source = (filled, window, source)) :
    r.Level { r with source := source, window := window } :=
  have hfill := Window.refills_of_fill h
  ⟨rfl, hfill.bytes.symm, hfill.offset.symm, rfl⟩

/-- A reader that advances over what is accounted for passes records. -/
theorem passes_of_advances {w : Width} {r' : Reader} {d : Deserializer} {size : Nat}
    {records : List (Record w)} {result : Result Event} (h : r.Advances size d r')
    (haccounts : r.deserializer.Accounts (r.pending.take size) records result d)
    (hsize : size ≤ r.pending.length) : r.Passes records r' where
  bytes := by
    refine ⟨_, haccounts.spells, ?_, ?_⟩
    · rw [h.pending, List.take_append_drop]
    · rw [h.offset, List.length_take, Nat.min_eq_left hsize]
  width := by rw [h.deserializer, haccounts.width]
  running := by rw [h.deserializer, haccounts.running]

theorem passesWhole_refl (h : r.Level q) : r.PassesWhole q :=
  ⟨[], ⟨[], .nil, h.pending, h.offset.symm⟩, by rw [h.deserializer], by rw [h.deserializer]; rfl⟩

/-- The records of one passage, and those of the next one. -/
theorem PassesWhole.trans (h : r.PassesWhole q) (h' : q.PassesWhole s) : r.PassesWhole s := by
  obtain ⟨records, ⟨used, hspells, hpending, hoffset⟩, hwidth, hrunning⟩ := h
  rw [PassesWhole, hwidth] at h'
  obtain ⟨records', ⟨used', hspells', hpending', hoffset'⟩, hwidth', hrunning'⟩ := h'
  refine ⟨records ++ records', ⟨used ++ used', hspells.append hspells', ?_, ?_⟩, hwidth', ?_⟩
  · rw [hpending, hpending', List.append_assoc]
  · rw [hoffset', hoffset, List.length_append, Nat.add_assoc]
  · rw [hrunning', hrunning, Width.timeAfter, Width.timeAfter, Width.timeAfter, List.foldl_append]

end

end Reader

end LogCodec
