import LogCodec.Proofs.Reader.Mishap
import LogCodec.Proofs.Reader.Requests
import LogCodec.Proofs.Stream.Feed

/-! # When a reader reads its source

    Whatever a reader is asked for, it looks at its window, and reads its source only if
    the window ends inside a record.  All records before that one were used up by then.

    * `Refill`: a read of the source, with the windows before and after it.
    * `Reader.openRefills`, `Request.refills`: the reads of an operation.
    * `Reader.Steps`: what a reader does to its window and its source, one step after
      another.
    * `Reader.request_steps`: this is all that a reader does.
    * `Reader.roomsTo_afterCalls`: so no read of the source is left out. -/

namespace LogCodec

/-! ### Reads of the source -/

/-- A read of the source. -/
structure Refill where
  /-- The window before room was made in it. -/
  before : Window
  after : Window

/-- The room that the source was offered. -/
def Refill.room (x : Refill) : Nat := x.before.makeRoom.room

namespace Reader

/-- The reads of a reader that is opened. -/
def openRefills (source : Source) (window : Window) : List Refill :=
  match Deserializer.ofBytes window.bytes with
  | .error .incomplete =>
    match _h : window.fill source with
    | (.more, window', source') => ⟨window, window'⟩ :: openRefills source' window'
    | (_, window', _) => [⟨window, window'⟩]
  | _ => []
termination_by source.data.length
decreasing_by exact (Window.length_of_fill_more _h).1

/-- The reads on the way to the next event. -/
def nextRefills (r : Reader) : List Refill :=
  match r.deserializer.next r.window.bytes with
  | (.error .incomplete, deserializer) =>
    match _h : r.window.fill r.source with
    | (.more, window, source) =>
      ⟨r.window, window⟩ :: nextRefills { r with source, deserializer, window }
    | (_, window, _) => [⟨r.window, window⟩]
  | _ => []
termination_by r.source.data.length
decreasing_by exact (Window.length_of_fill_more _h).1

/-- The reads on the way to an event with the property. -/
def untilRefills (p : Event → Bool) (r : Reader) : List Refill :=
  match _h : r.next with
  | (.ok event, r') => r.nextRefills ++ if p event then [] else untilRefills p r'
  | (.error _, _) => r.nextRefills
termination_by r.ahead
decreasing_by exact ahead_of_next _h

/-- A search uses bytes of the window only. -/
theorem consumed_search_le (r : Reader) (interval : Interval) (matcher : Matcher) :
    (r.deserializer.find interval matcher r.window.bytes).consumed ≤ r.window.bytes.length :=
  Deserializer.consumed_find_le ..

/-- The reader after what a search of its window used. -/
def searched (r : Reader) (interval : Interval) (matcher : Matcher) : Reader :=
  { r with
    deserializer := (r.deserializer.find interval matcher r.window.bytes).after
    window := r.window.consume (r.deserializer.find interval matcher r.window.bytes).consumed
      (r.consumed_search_le interval matcher) }

/-- The reads of a search. -/
def matchRefills (r : Reader) (interval : Interval) (matcher : Matcher) : List Refill :=
  let used := r.searched interval matcher
  match (r.deserializer.find interval matcher r.window.bytes).result with
  | .error .incomplete | .error .noMatch =>
    match _h : used.window.fill used.source with
    | (.more, window, source) =>
      ⟨used.window, window⟩ :: matchRefills { used with source, window } interval matcher
    | (_, window, _) => [⟨used.window, window⟩]
  | _ => []
termination_by r.source.data.length
decreasing_by all_goals exact (Window.length_of_fill_more _h).1

end Reader

/-- The reads of a request. -/
def Request.refills : Request → Reader → List Refill
  | search interval queries, r => r.matchRefills interval (Matcher.ofQueries queries)
  | next, r => r.nextRefills
  | request, r => r.untilRefills request.accepts

/-- A call of a reader. -/
inductive Call where
  | read (request : Request)
  | close

namespace Call

/-- The reader after a call. -/
def run : Call → Reader → Reader
  | read request, r => (request.run r).2
  | close, r => r.close

/-- The reads of a call. -/
def refills : Call → Reader → List Refill
  | read request, r => request.refills r
  | close, _ => []

end Call

namespace Reader

/-- The reader after several calls. -/
def afterCalls (r : Reader) (calls : List Call) : Reader := calls.foldl (fun r call => call.run r) r

/-- The reads of several calls. -/
def callRefills (r : Reader) : List Call → List Refill
  | [] => []
  | call :: rest => call.refills r ++ (call.run r).callRefills rest

end Reader

/-! ### Windows and deserializers that go on -/

theorem Window.consume_consume (w : Window) {m n : Nat} (hm : m ≤ w.bytes.length)
    (hn : n ≤ (w.consume m hm).bytes.length) (h : m + n ≤ w.bytes.length) :
    (w.consume m hm).consume n hn = w.consume (m + n) h := by
  simp only [consume, Nat.add_assoc]

namespace Deserializer

variable {d : Deserializer} {bytes : Bytes}

/-- Reading does not close a deserializer. -/
theorem closed_of_step_stop {error : Error} {after : Deserializer}
    (h : d.step bytes = .stop error after) : after.closed = d.closed := by
  rcases (step_eq_stop h).2 with rfl | ⟨-, rfl⟩ <;> rfl

theorem closed_next (d : Deserializer) (bytes : Bytes) : (d.next bytes).2.closed = d.closed := by
  unfold next
  split
  · rename_i hs
    exact closed_of_step_stop hs
  · split <;> rfl

theorem width_next (d : Deserializer) (bytes : Bytes) : (d.next bytes).2.width = d.width := by
  obtain ⟨_, haccounts⟩ := accounts_next d bytes
  exact haccounts.width

theorem closed_findFrom (interval : Interval) (test : Bytes → Option Nat) (consumed : Nat) :
    (d.findFrom interval test consumed bytes).after.closed = d.closed := by
  fun_induction findFrom d interval test consumed bytes with
  | case1 d consumed bytes after hs => exact closed_of_step_stop hs
  | case2 d consumed bytes error after _ hs => exact closed_of_step_stop hs
  | case3 | case4 => rfl
  | case5 _ _ _ _ _ _ _ _ _ _ _ ih | case6 _ _ _ _ _ _ _ _ ih => exact ih

/-- A search asks for more bytes only where those that it left end inside a record. -/
theorem step_of_asksForMore {interval : Interval} {test : Bytes → Option Nat} {consumed : Nat}
    (h : AsksForMore (d.findFrom interval test consumed bytes).result) :
    (d.findFrom interval test consumed bytes).after.step
        (bytes.drop ((d.findFrom interval test consumed bytes).consumed - consumed)) =
      .stop .incomplete (d.findFrom interval test consumed bytes).after := by
  fun_induction findFrom d interval test consumed bytes with
  | case1 d consumed bytes after hs =>
    rw [Nat.sub_self, List.drop_zero]
    rw [after_of_step_incomplete hs]
    exact step_of_incomplete hs
  | case2 d consumed bytes error after hne hs =>
    rcases h with h | h
    · exact absurd (Except.error.inj h) hne
    · exact absurd (Except.error.inj h) (step_eq_stop hs).1
  | case3 | case4 => rcases h with h | h <;> cases h
  | case5 d consumed bytes encoded timestamp size hs _ _ _ _ ih
  | case6 d consumed bytes encoded timestamp size hs _ ih =>
    -- a record that was passed over is no part of what is left
    have hrest {stop : Nat} (hstop : consumed + size ≤ stop) :
        size + (stop - (consumed + size)) = stop - consumed := by omega
    have hasks := ih h
    rw [List.drop_drop, hrest (le_consumed_findFrom ..)] at hasks
    exact hasks

end Deserializer

namespace Reader

/-! ### Steps -/

/-- The second reader is the first one after whole records of the window were used, or
    none. -/
structure Uses (r r' : Reader) : Prop where
  source : r'.source = r.source
  width : r'.deserializer.width = r.deserializer.width
  closed : r'.deserializer.closed = r.deserializer.closed
  window : ∃ (size : Nat) (h : size ≤ r.window.bytes.length),
    r'.window = r.window.consume size h ∧
      Deserializer.Records r.deserializer.width (r.window.bytes.take size)

/-- What a reader does until it answers.  It uses records, and reads its source when it
    asks for the rest of a record. -/
inductive Steps : Reader → List Refill → Reader → Prop where
  | use {r r' : Reader} : r.Uses r' → Steps r [] r'
  | fill {r r₁ r' : Reader} {filled : Window.Filled} {window : Window} {source : Source}
    {refills : List Refill} :
    r.Uses r₁ →
    r₁.deserializer.step r₁.window.bytes = .stop .incomplete r₁.deserializer →
    r₁.window.fill r₁.source = (filled, window, source) →
    Steps { r₁ with window := window, source := source } refills r' →
    Steps r (⟨r₁.window, window⟩ :: refills) r'

section

variable {r r' r'' : Reader} {refills refills' : List Refill}

theorem Uses.of_window_eq (hsource : r'.source = r.source) (hwindow : r'.window = r.window)
    (hwidth : r'.deserializer.width = r.deserializer.width)
    (hclosed : r'.deserializer.closed = r.deserializer.closed) : r.Uses r' := by
  refine ⟨hsource, hwidth, hclosed, 0, Nat.zero_le _, hwindow, ?_⟩
  exact ⟨[], fun _ h => absurd h List.not_mem_nil, List.take_zero⟩

theorem Uses.refl (r : Reader) : r.Uses r := .of_window_eq rfl rfl rfl rfl

theorem Uses.trans (h : r.Uses r') (h' : r'.Uses r'') : r.Uses r'' := by
  obtain ⟨source, deserializer, window, events⟩ := r'
  obtain ⟨hsource, hwidth, hclosed, size, hsize, hwindow, records, hframed, hrecords⟩ := h
  obtain ⟨hsource', hwidth', hclosed', size', hsize', hwindow', records', hframed', hrecords'⟩ := h'
  dsimp only at *
  subst hwindow
  rw [hwidth] at hframed'
  rw [Window.bytes_consume] at hrecords'
  -- the second records were used from what the first ones left
  have hle : size + size' ≤ r.window.bytes.length := by
    rw [Window.bytes_consume, List.length_drop] at hsize'
    omega
  refine ⟨hsource'.trans hsource, hwidth'.trans hwidth, hclosed'.trans hclosed,
    size + size', hle, ?_, records ++ records', ?_, ?_⟩
  · rw [hwindow', Window.consume_consume]
  · intro record hrecord
    rcases List.mem_append.1 hrecord with hrecord | hrecord
    · exact hframed record hrecord
    · exact hframed' record hrecord
  · rw [List.take_add, hrecords, hrecords', List.flatten_append]

/-- Records are used one after another before the source is read. -/
theorem Steps.of_uses (h : r.Uses r') (h' : r'.Steps refills r'') : r.Steps refills r'' := by
  cases h' with
  | use huses => exact .use (h.trans huses)
  | fill huses hasks hfill hrest => exact .fill (h.trans huses) hasks hfill hrest

theorem Steps.trans (h : r.Steps refills r') (h' : r'.Steps refills' r'') :
    r.Steps (refills ++ refills') r'' := by
  -- what the first run used last and what the second one used first is one use
  induction h with
  | use huses => exact h'.of_uses huses
  | fill huses hasks hfill _ ih => exact .fill huses hasks hfill (ih h')

end

/-! ### Opening -/

section

variable {source : Source} {window : Window}

theorem openRefills_of_settled (h : Deserializer.ofBytes window.bytes ≠ .error .incomplete) :
    openRefills source window = [] := by
  rw [openRefills]
  split
  · rename_i hincomplete
    exact absurd hincomplete h
  · rfl

theorem openRefills_of_incomplete {filled : Window.Filled} {window' : Window} {source' : Source}
    (h : Deserializer.ofBytes window.bytes = .error .incomplete)
    (hf : window.fill source = (filled, window', source')) :
    openRefills source window =
      ⟨window, window'⟩ :: if filled = .more then openRefills source' window' else [] := by
  rw [openRefills]
  simp only [h]
  split
  · rename_i hmore
    rw [hf] at hmore
    cases hmore
    rw [if_pos rfl]
  · rename_i hne hother
    rw [hf] at hother
    cases hother
    rw [if_neg hne]

/-- A reader that was opened has read its source so often. -/
theorem source_of_openWith {r : Reader} (h : openWith source window = .ok r) :
    r.source = source.after ((openRefills source window).map Refill.room) := by
  -- along the reads of the source
  fun_induction openWith source window with
  | case1 source window d size hp =>
    cases h
    rw [openRefills_of_settled (by rw [hp]; simp)]
    rfl
  | case2 source window hp window' source' hf ih =>
    obtain ⟨hsource, -⟩ := Window.read_of_fill hf
    rw [openRefills_of_incomplete hp hf, if_pos rfl, ih h, hsource]
    rfl
  | case3 | case4 | case5 => cases h

end

/-! ### The next event -/

section

variable {r : Reader}

theorem nextRefills_of_settled (h : (r.deserializer.next r.window.bytes).1 ≠ .error .incomplete) :
    r.nextRefills = [] := by
  rw [nextRefills]
  split
  · rename_i hd
    rw [hd] at h
    exact absurd rfl h
  · rfl

theorem nextRefills_of_incomplete {d : Deserializer} {filled : Window.Filled} {window : Window}
    {source : Source} (hd : r.deserializer.next r.window.bytes = (.error .incomplete, d))
    (hf : r.window.fill r.source = (filled, window, source)) :
    r.nextRefills = ⟨r.window, window⟩ ::
      if filled = .more then
        nextRefills { r with source := source, deserializer := d, window := window }
      else [] := by
  rw [nextRefills]
  simp only [hd]
  split
  · rename_i hmore
    rw [hf] at hmore
    cases hmore
    rw [if_pos rfl]
  · rename_i hne hother
    rw [hf] at hother
    cases hother
    rw [if_neg hne]

theorem uses_next {event : Event} {size : Nat} {d : Deserializer}
    (h : r.deserializer.next r.window.bytes = (.ok (event, size), d)) (events : Nat) :
    r.Uses { r with
      deserializer := d
      window := r.window.consume size (Deserializer.size_of_next h).2
      events := events } := by
  obtain ⟨records, haccounts⟩ := Deserializer.accounts_next r.deserializer r.window.bytes
  have hclosed := Deserializer.closed_next r.deserializer r.window.bytes
  rw [h] at haccounts hclosed
  exact ⟨rfl, haccounts.width, hclosed, size, (Deserializer.size_of_next h).2, rfl,
    Deserializer.records_of_spells haccounts.spells⟩

end

theorem next_steps (r : Reader) : r.Steps r.nextRefills r.next.2 := by
  -- along the reads of the source
  fun_induction next r with
  | case1 r event size d hd =>
    rw [nextRefills_of_settled (by rw [hd]; simp)]
    exact .use (uses_next hd _)
  | case2 r d hd window source hf ih =>
    obtain ⟨hasks, rfl⟩ := Deserializer.next_of_incomplete hd
    rw [nextRefills_of_incomplete hd hf, if_pos rfl]
    exact .fill (.refl r) hasks hf ih
  | case3 r d hd window source hf | case4 r d hd window source reason hf =>
    -- the last read of this call: there is nothing more, or it failed
    obtain ⟨hasks, rfl⟩ := Deserializer.next_of_incomplete hd
    rw [nextRefills_of_incomplete hd hf, if_neg (by simp)]
    exact .fill (.refl r) hasks hf (.use (.refl _))
  | case5 r error d hne hd =>
    have hwidth := Deserializer.width_next r.deserializer r.window.bytes
    have hclosed := Deserializer.closed_next r.deserializer r.window.bytes
    rw [hd] at hwidth hclosed
    rw [nextRefills_of_settled (by rw [hd]; simpa using hne)]
    exact .use (.of_window_eq rfl rfl hwidth hclosed)

/-! ### Reading until a property holds -/

theorem untilRefills_of_ok {p : Event → Bool} {r r' : Reader} {event : Event}
    (h : r.next = (.ok event, r')) :
    r.untilRefills p = r.nextRefills ++ if p event then [] else r'.untilRefills p := by
  rw [untilRefills]
  split <;> simp_all

theorem untilRefills_of_error {p : Event → Bool} {r r' : Reader} {error : Error}
    (h : r.next = (.error error, r')) : r.untilRefills p = r.nextRefills := by
  rw [untilRefills]
  split <;> simp_all

theorem until_steps (p : Event → Bool) (r : Reader) :
    r.Steps (r.untilRefills p) (r.nextUntil p).2 := by
  -- along the events that are passed over
  fun_induction nextUntil p r with
  | case1 r event r' hnext hp =>
    have hsteps := r.next_steps
    rw [hnext] at hsteps
    rw [untilRefills_of_ok hnext, if_pos hp, List.append_nil]
    exact hsteps
  | case2 r event r' hnext hp ih =>
    have hsteps := r.next_steps
    rw [hnext] at hsteps
    rw [untilRefills_of_ok hnext, if_neg hp]
    exact hsteps.trans ih
  | case3 r error r' hnext =>
    have hsteps := r.next_steps
    rw [hnext] at hsteps
    rw [untilRefills_of_error hnext]
    exact hsteps

/-! ### Searching -/

section

variable {r : Reader} {interval : Interval} {matcher : Matcher}

theorem matchRefills_of_settled
    (h : ¬ Deserializer.AsksForMore
      (r.deserializer.find interval matcher r.window.bytes).result) :
    r.matchRefills interval matcher = [] := by
  rw [matchRefills]
  split
  · rename_i hresult
    exact absurd (.inl hresult) h
  · rename_i hresult
    exact absurd (.inr hresult) h
  · rfl

theorem matchRefills_of_asksForMore {filled : Window.Filled} {window : Window} {source : Source}
    (h : Deserializer.AsksForMore (r.deserializer.find interval matcher r.window.bytes).result)
    (hf : (r.searched interval matcher).window.fill r.source = (filled, window, source)) :
    r.matchRefills interval matcher = ⟨(r.searched interval matcher).window, window⟩ ::
      if filled = .more then
        matchRefills { r.searched interval matcher with source := source, window := window }
          interval matcher
      else [] := by
  have hf : (r.searched interval matcher).window.fill (r.searched interval matcher).source =
    (filled, window, source) := hf
  rw [matchRefills]
  rcases h with h | h
  all_goals
    simp only [h]
    split
    · rename_i hmore
      rw [hf] at hmore
      cases hmore
      rw [if_pos rfl]
    · rename_i hne hother
      rw [hf] at hother
      cases hother
      rw [if_neg hne]

theorem uses_searched (events : Nat) :
    r.Uses { r.searched interval matcher with events := events } := by
  obtain ⟨records, haccounts⟩ :=
    Deserializer.accounts_find r.deserializer interval matcher r.window.bytes
  exact ⟨rfl, haccounts.width, Deserializer.closed_findFrom interval matcher.find? 0, _,
    Deserializer.consumed_find_le .., rfl, Deserializer.records_of_spells haccounts.spells⟩

/-- A search that asks for more bytes left a part of a record in the window. -/
theorem step_searched
    (h : Deserializer.AsksForMore (r.deserializer.find interval matcher r.window.bytes).result) :
    (r.searched interval matcher).deserializer.step (r.searched interval matcher).window.bytes =
      .stop .incomplete (r.searched interval matcher).deserializer := by
  rw [searched, Window.bytes_consume]
  exact Deserializer.step_of_asksForMore h

/-- What was found, or why there is nothing to be found. -/
theorem match_steps_settled {r' : Reader}
    (h : ¬ Deserializer.AsksForMore (r.deserializer.find interval matcher r.window.bytes).result)
    (huses : r.Uses r') : r.Steps (r.matchRefills interval matcher) r' := by
  rw [matchRefills_of_settled h]
  exact .use huses

end

theorem match_steps (r : Reader) (interval : Interval) (matcher : Matcher) :
    r.Steps (r.matchRefills interval matcher) (r.nextMatch interval matcher).2 := by
  -- along the reads of the source
  unfold nextMatch
  fun_induction nextPassing r interval matcher.find? with
  | case1 r search window deserializer found hs =>
    refine match_steps_settled ?_ (uses_searched _)
    show ¬ Deserializer.AsksForMore search.result
    simp [Deserializer.AsksForMore, hs]
  | case2 r search window deserializer hs window' source hf ih =>
    -- the records that were passed over are used before the source is read
    rw [matchRefills_of_asksForMore (.inl hs) hf, if_pos rfl]
    exact .fill (uses_searched _) (step_searched (.inl hs)) hf ih
  | case5 r search window deserializer hs window' source hf ih =>
    rw [matchRefills_of_asksForMore (.inr hs) hf, if_pos rfl]
    exact .fill (uses_searched _) (step_searched (.inr hs)) hf ih
  | case3 r search window deserializer hs window' source hf
  | case4 r search window deserializer hs window' source reason hf =>
    rw [matchRefills_of_asksForMore (.inl hs) hf, if_neg (by simp)]
    exact .fill (uses_searched _) (step_searched (.inl hs)) hf (.use (.refl _))
  | case6 r search window deserializer hs window' source hf
  | case7 r search window deserializer hs window' source reason hf =>
    rw [matchRefills_of_asksForMore (.inr hs) hf, if_neg (by simp)]
    exact .fill (uses_searched _) (step_searched (.inr hs)) hf (.use (.refl _))
  | case8 r search window deserializer error hincomplete hnoMatch hs =>
    refine match_steps_settled ?_ (uses_searched _)
    show ¬ Deserializer.AsksForMore search.result
    simp only [Deserializer.AsksForMore, hs, Except.error.injEq, not_or]
    exact ⟨hincomplete, hnoMatch⟩

/-! ### Calls -/

/-- **A request** is answered by such steps alone. -/
theorem request_steps (request : Request) (r : Reader) :
    r.Steps (request.refills r) (request.run r).2 := by
  cases request with
  | next => exact r.next_steps
  | search interval queries => exact r.match_steps interval (Matcher.ofQueries queries)
  | _ => exact until_steps _ r

/-- The source is read where the steps say so, and nowhere else. -/
theorem Steps.source_eq {r r' : Reader} {refills : List Refill} (h : r.Steps refills r') :
    r'.source = r.source.after (refills.map Refill.room) := by
  induction h with
  | use huses => exact huses.source
  | fill huses _ hfill _ ih =>
    obtain ⟨hsource, -⟩ := Window.read_of_fill hfill
    rw [ih, hsource, huses.source]
    rfl

theorem source_run (call : Call) (r : Reader) :
    (call.run r).source = r.source.after ((call.refills r).map Refill.room) := by
  cases call with
  | read request => exact (request_steps request r).source_eq
  | close => rfl

theorem source_afterCalls (r : Reader) (calls : List Call) :
    (r.afterCalls calls).source = r.source.after ((r.callRefills calls).map Refill.room) := by
  induction calls generalizing r with
  | nil => rfl
  | cons call rest ih =>
    rw [callRefills, List.map_append, Source.after_append, ← source_run]
    exact ih (call.run r)

/-- **The reads of several calls** are all that the source was asked for. -/
theorem roomsTo_afterCalls (r : Reader) (calls : List Call) :
    r.source.roomsTo (r.afterCalls calls).source = (r.callRefills calls).map Refill.room := by
  rw [source_afterCalls, Source.roomsTo_after]

end Reader

end LogCodec
