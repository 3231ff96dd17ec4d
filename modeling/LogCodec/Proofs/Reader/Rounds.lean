import LogCodec.Proofs.Reader.Refills
import LogCodec.Proofs.Stream.Scan

/-! # How often a reader goes round

    A reader answers after loops within loops: a call of the source that is interrupted is
    made again, a record that is not complete is tried again after a read, and events that
    are not wanted are passed over.  Here the loops are taken apart into their rounds.

    * `Loop.Ends`: a loop ends with an answer, and each round before the last one makes
      progress.  `Loop.ends_of_size` gives this from a size that each round lowers.
    * `Refilled`: the progress of a read.  The window has more bytes, and the source fewer.
    * `Source.spent`: what limits the reads of an operation, however its loops are nested.
      Its bytes can be given only once.
    * `Reader.returns`: all operations come to an end, and how often they read. -/

namespace LogCodec

/-! ### Loops -/

namespace Loop

variable {σ α : Type}

/-- A loop that starts in a state ends with an answer.  The states are those that its
    rounds leave, but for the last round, which gives the answer. -/
inductive Runs (round : σ → α ⊕ σ) : σ → List σ → α → Prop where
  | stop {s : σ} {answer : α} : round s = .inl answer → Runs round s [] answer
  | go {s s' : σ} {later : List σ} {answer : α} :
    round s = .inr s' → Runs round s' later answer → Runs round s (s' :: later) answer

/-- A loop ends with an answer after at most so many rounds before the last one, each of
    which makes progress. -/
def Ends (round : σ → α ⊕ σ) (Progress : σ → σ → Prop) (s : σ) (limit : Nat) (answer : α) :
    Prop :=
  ∃ later, Runs round s later answer ∧ List.IsChain Progress (s :: later) ∧ later.length ≤ limit

/-- What is known of one round: it gives the answer, or leaves a state with the same answer
    that has come further. -/
def Advances (round : σ → α ⊕ σ) (Progress : σ → σ → Prop) (answer : σ → α) (s : σ) : Prop :=
  round s = .inl (answer s) ∨ ∃ s', round s = .inr s' ∧ answer s' = answer s ∧ Progress s s'

variable {round : σ → α ⊕ σ} {Progress : σ → σ → Prop} {answer : σ → α} {cost : Nat}

/-- **A loop ends** if each round lowers a size, and its rounds are as many as the size can
    pay for. -/
theorem ends_of_size (size : σ → Nat) (hcost : 0 < cost)
    (hround : ∀ s, Advances round Progress answer s)
    (hsize : ∀ s s', Progress s s' → size s' + cost ≤ size s) (s : σ) :
    Ends round Progress s (size s / cost) (answer s) := by
  induction hn : size s using Nat.strongRecOn generalizing s with
  | ind n ih =>
    subst hn
    rcases hround s with hstop | ⟨s', hgo, hanswer, hprogress⟩
    · exact ⟨[], .stop hstop, .singleton s, Nat.zero_le _⟩
    · have hle := hsize s s' hprogress
      obtain ⟨later, hruns, hchain, hlength⟩ := ih (size s') (by omega) s' rfl
      rw [hanswer] at hruns
      refine ⟨s' :: later, .go hgo hruns, .cons_cons hprogress hchain, ?_⟩
      calc later.length + 1
        _ ≤ size s' / cost + 1 := Nat.add_le_add_right hlength 1
        _ = (size s' + cost) / cost := (Nat.add_div_right _ hcost).symm
        _ ≤ size s / cost := Nat.div_le_div_right hle

end Loop

/-! ### Calls that are interrupted -/

namespace Source

/-- A call of the source in one turn, after so many others in this turn. -/
def callRound (s : Source) (room calls : Nat) : (Reply × Nat × Source) ⊕ Nat :=
  if calls < (s.plan (room :: s.offered)).interrupts then .inr (calls + 1)
  else .inl ((s.read room).1, calls + 1, (s.read room).2.2)

theorem calls_read (s : Source) (room : Nat) :
    (s.read room).2.1 = (s.plan (room :: s.offered)).interrupts + 1 := by
  unfold read
  dsimp only
  split
  · rfl
  · split <;> rfl

/-- A call is made again as often as it is interrupted. -/
theorem ends_callRound (s : Source) (room : Nat) :
    Loop.Ends (s.callRound room) (fun calls calls' => calls' = calls + 1) 0
      (s.plan (room :: s.offered)).interrupts (s.read room) := by
  have hloop (left calls : Nat)
      (h : calls + left = (s.plan (room :: s.offered)).interrupts) :
      Loop.Ends (s.callRound room) (fun calls calls' => calls' = calls + 1) calls left
        (s.read room) := by
    -- on the interruptions that are left
    induction left generalizing calls with
    | zero =>
      have hread : s.callRound room calls = .inl (s.read room) := by
        rw [callRound, if_neg (by omega), show calls + 1 = (s.read room).2.1 by
          rw [calls_read]; omega]
      exact ⟨[], .stop hread, .singleton calls, Nat.le_refl 0⟩
    | succ left ih =>
      obtain ⟨later, hruns, hchain, hlength⟩ := ih (calls + 1) (by omega)
      have hagain : s.callRound room calls = .inr (calls + 1) := if_pos (by omega)
      exact ⟨(calls + 1) :: later, .go hagain hruns, .cons_cons rfl hchain,
        Nat.succ_le_succ hlength⟩
  exact hloop _ 0 (Nat.zero_add _)

/-! ### Reads and bytes -/

theorem length_data_read_le (s : Source) (room : Nat) :
    (s.read room).2.2.data.length ≤ s.data.length := by
  unfold read
  dsimp only
  split
  · exact Nat.le_refl _
  · split
    · exact Nat.le_refl _
    · rw [List.length_drop]
      exact Nat.sub_le ..

/-- The reads that were made and the bytes that are left.  A read that gives a byte leaves
    the sum as it is, or lowers it. -/
def spent (s : Source) : Nat := s.offered.length + s.data.length

/-- Reads are limited by the bytes. -/
theorem length_roomsTo_le {s s' : Source} (h : s'.spent ≤ s.spent + 1) :
    (s.roomsTo s').length ≤ s.data.length + 1 := by
  unfold spent at h
  rw [roomsTo, List.length_reverse, List.length_take]
  omega

end Source

/-- The source was read once, with room for some bytes, and gave some.  They are at the end of
    the window now. -/
structure Refilled (s s' : Source × Window) : Prop where
  room : Window.lowWater ≤ s.2.makeRoom.room
  source : s'.1 = s.1.after [s.2.makeRoom.room]
  more : s.2.bytes.length < s'.2.bytes.length
  fewer : s'.1.data.length + 1 ≤ s.1.data.length

namespace Window

variable {w w' : Window} {source source' : Source} {filled : Filled}

theorem refilled_of_fill (h : w.fill source = (.more, w', source')) :
    Refilled (source, w) (source', w') := by
  obtain ⟨hfewer, hsum⟩ := length_of_fill_more h
  have hmore : w.bytes.length < w'.bytes.length := by omega
  exact ⟨lowWater_le_room_makeRoom w, (read_of_fill h).1, hmore, hfewer⟩

/-- Any other read is the last one. -/
theorem spent_of_fill (h : w.fill source = (filled, w', source')) :
    source'.spent ≤ source.spent + 1 ∧ (filled = .more → source'.spent ≤ source.spent) := by
  obtain ⟨hsource, -⟩ := read_of_fill h
  have hoffered : source'.offered.length = source.offered.length + 1 := by
    rw [hsource, Source.offered_after]
    rfl
  have hdata : source'.data.length ≤ source.data.length := by
    rw [hsource]
    exact source.length_data_read_le _
  unfold Source.spent
  constructor
  · omega
  · rintro rfl
    have hfewer := (length_of_fill_more h).1
    omega

end Window

namespace Deserializer

/-! ### Searching -/

/-- One round of a search: the record in front is looked at. -/
def findRound (interval : Interval) (matcher : Matcher) :
    Deserializer × Nat × Bytes → Search ⊕ Deserializer × Nat × Bytes
  | (d, consumed, bytes) =>
    match d.step bytes with
    | .stop .incomplete after =>
      .inl ⟨.error (if 0 < consumed then .noMatch else .incomplete), consumed, after⟩
    | .stop error after => .inl ⟨.error error, consumed, after⟩
    | .event encoded timestamp size =>
      if interval.contains timestamp then
        match encoded.render with
        | ⟨text, some fault⟩ => .inl ⟨.error (.decode fault), consumed, d.withText text⟩
        | ⟨text, none⟩ =>
          match matcher.find? text with
          | some query =>
            .inl ⟨.ok ⟨⟨text, timestamp⟩, query⟩, consumed + size, (d.withText text).commit timestamp⟩
          | none => .inr ((d.withText text).commit timestamp, consumed + size, bytes.drop size)
      else .inr (d.commit timestamp, consumed + size, bytes.drop size)

/-- A record was passed over. -/
def Skipped (s s' : Deserializer × Nat × Bytes) : Prop :=
  ∃ size, 25 ≤ size ∧ size ≤ s.2.2.length ∧ s'.2.1 = s.2.1 + size ∧ s'.2.2 = s.2.2.drop size

/-- No record is shorter. -/
theorem le_size_of_step_event {d : Deserializer} {bytes : Bytes} {encoded : Encoded d.width}
    {timestamp : Int64} {size : Nat} (h : d.step bytes = .event encoded timestamp size) :
    25 ≤ size := by
  obtain ⟨r, -, -, record, rest, hr, -, rfl⟩ := record_of_step_event h
  rw [Record.length_of_toBytes hr, Record.size]
  omega

theorem le_size_of_next {d d' : Deserializer} {bytes : Bytes} {event : Event} {size : Nat}
    (h : d.next bytes = (.ok (event, size), d')) : 25 ≤ size := by
  unfold next at h
  split at h
  · cases h
  · rename_i hstep
    split at h
    · cases h
    · cases h
      exact le_size_of_step_event hstep

theorem advances_findRound (interval : Interval) (matcher : Matcher)
    (s : Deserializer × Nat × Bytes) :
    Loop.Advances (findRound interval matcher) Skipped
      (fun s => s.1.findFrom interval matcher.find? s.2.1 s.2.2) s := by
  obtain ⟨d, consumed, bytes⟩ := s
  cases hstep : d.step bytes with
  | stop error after =>
    refine .inl ?_
    by_cases hincomplete : error = .incomplete
    · subst hincomplete
      obtain rfl := after_of_step_incomplete hstep
      simp only [findRound, hstep, findFrom_incomplete hstep]
    · simp only [findRound, hstep, findFrom_stop hstep hincomplete]
  | event encoded timestamp size =>
    have hskipped (d' : Deserializer) :
        Skipped (d, consumed, bytes) (d', consumed + size, bytes.drop size) :=
      ⟨size, le_size_of_step_event hstep, (size_of_step_event hstep).2, rfl, rfl⟩
    by_cases hinside : interval.contains timestamp = true
    · cases hrender : encoded.render with
      | mk text fault =>
        cases fault with
        | some fault =>
          exact .inl (by simp only [findRound, hstep, hinside, hrender, if_true,
            findFrom_fault hstep hinside hrender])
        | none =>
          cases hfind : matcher.find? text with
          | some query =>
            exact .inl (by simp only [findRound, hstep, hinside, hrender, hfind, if_true,
              findFrom_found hstep hinside hrender hfind])
          | none =>
            refine .inr ⟨((d.withText text).commit timestamp, consumed + size, bytes.drop size), ?_,
              (findFrom_skip hstep hinside hrender hfind).symm, hskipped _⟩
            simp only [findRound, hstep, hinside, hrender, hfind, if_true]
    · rw [Bool.not_eq_true] at hinside
      refine .inr ⟨(d.commit timestamp, consumed + size, bytes.drop size), ?_,
        (findFrom_outside hstep hinside).symm, hskipped _⟩
      simp only [findRound, hstep, hinside, Bool.false_eq_true, if_false]

/-- A search ends: each record that is passed over has at least 25 bytes. -/
theorem ends_findRound (d : Deserializer) (interval : Interval) (matcher : Matcher)
    (consumed : Nat) (bytes : Bytes) :
    Loop.Ends (findRound interval matcher) Skipped (d, consumed, bytes) (bytes.length / 25)
      (d.findFrom interval matcher.find? consumed bytes) := by
  have hcost (s s' : Deserializer × Nat × Bytes) (h : Skipped s s') :
      s'.2.2.length + 25 ≤ s.2.2.length := by
    obtain ⟨size, hleast, hle, -, hrest⟩ := h
    rw [hrest, List.length_drop]
    omega
  exact Loop.ends_of_size (fun s => s.2.2.length) (by decide)
    (advances_findRound interval matcher) hcost (d, consumed, bytes)

end Deserializer

namespace Reader

/-! ### Opening -/

/-- One round of opening a reader: the preamble is looked for in the window. -/
def openRound (s : Source × Window) : Result Reader ⊕ Source × Window :=
  match hp : Deserializer.ofBytes s.2.bytes with
  | .ok (deserializer, size) =>
    .inl (.ok ⟨s.1, deserializer, s.2.consume size (Deserializer.size_of_ofBytes hp), 0⟩)
  | .error .incomplete =>
    match s.2.fill s.1 with
    | (.more, window, source) => .inr (source, window)
    | (.exhausted, _, _) => .inl (.error .incomplete)
    | (.failed reason, _, _) => .inl (.error (.io reason))
  | .error error => .inl (.error error)

theorem advances_openRound (s : Source × Window) :
    Loop.Advances openRound Refilled (fun s => openWith s.1 s.2) s := by
  obtain ⟨source, window⟩ := s
  unfold Loop.Advances
  dsimp only
  fun_cases openWith source window with
  | case2 hp window' source' hf =>
    refine .inr ⟨(source', window'), ?_, rfl, Window.refilled_of_fill hf⟩
    unfold openRound
    split <;> simp_all
  | case1 deserializer size hp =>
    refine .inl ?_
    unfold openRound
    split
    · rename_i hp'
      cases hp'.symm.trans hp
      rfl
    all_goals simp_all
  | case3 | case4 | case5 =>
    refine .inl ?_
    unfold openRound
    split <;> simp_all

/-- Opening a reader ends: each read but the last one gives a byte. -/
theorem ends_openRound (source : Source) (window : Window) :
    Loop.Ends openRound Refilled (source, window) source.data.length (openWith source window) := by
  have hends := Loop.ends_of_size (fun s => s.1.data.length) Nat.one_pos advances_openRound
    (fun _ _ h => h.fewer) (source, window)
  rwa [Nat.div_one] at hends

theorem length_openRefills_le (source : Source) (window : Window) :
    (openRefills source window).length ≤ source.data.length + 1 := by
  fun_induction openRefills source window with
  | case1 source window hp window' source' hf ih =>
    have hfewer := (Window.length_of_fill_more hf).1
    rw [List.length_cons]
    omega
  | case2 => exact Nat.le_add_left ..
  | case3 => exact Nat.zero_le _

/-! ### The next event -/

/-- An event is no longer than the window that it was read from. -/
theorem size_le_of_next {r : Reader} {event : Event} {size : Nat} {d : Deserializer}
    (h : r.deserializer.next r.window.bytes = (.ok (event, size), d)) :
    size ≤ r.window.bytes.length :=
  (Deserializer.size_of_next h).2

/-- One round of reading the next event: the record in front of the window is tried. -/
def nextRound (r : Reader) : (Result Event × Reader) ⊕ Reader :=
  match hn : r.deserializer.next r.window.bytes with
  | (.ok (event, size), deserializer) =>
    .inl (.ok event, { r with
      deserializer := deserializer
      window := r.window.consume size (size_le_of_next hn)
      events := r.events + 1 })
  | (.error .incomplete, deserializer) =>
    match r.window.fill r.source with
    | (.more, window, source) => .inr { r with source, deserializer, window }
    | (.exhausted, window, source) =>
      .inl (.error .incomplete, { r with source, deserializer, window })
    | (.failed reason, window, source) =>
      .inl (.error (.io reason), { r with source, deserializer, window })
  | (.error error, deserializer) => .inl (.error error, { r with deserializer })

/-- What a reader reads from, and what it reads into. -/
def stock (r : Reader) : Source × Window := (r.source, r.window)

theorem advances_nextRound (r : Reader) :
    Loop.Advances nextRound (fun r r' => Refilled r.stock r'.stock) next r := by
  unfold Loop.Advances
  fun_cases next r with
  | case2 d hd window source hf =>
    refine .inr ⟨_, ?_, rfl, Window.refilled_of_fill hf⟩
    unfold nextRound
    split <;> simp_all
  | case1 event size d hd =>
    refine .inl ?_
    unfold nextRound
    split
    · rename_i hd'
      cases hd'.symm.trans hd
      rfl
    all_goals simp_all
  | case3 | case4 | case5 =>
    refine .inl ?_
    unfold nextRound
    split <;> simp_all

/-- Reading an event ends. -/
theorem ends_nextRound (r : Reader) :
    Loop.Ends nextRound (fun r r' => Refilled r.stock r'.stock) r r.source.data.length r.next := by
  have hends := Loop.ends_of_size (fun r => r.source.data.length) Nat.one_pos advances_nextRound
    (fun _ _ h => h.fewer) r
  rwa [Nat.div_one] at hends

/-- Only a call that fails may make a read that gives nothing. -/
theorem spent_next (r : Reader) :
    r.next.2.source.spent ≤ r.source.spent + 1 ∧
      ∀ event, r.next.1 = .ok event → r.next.2.source.spent ≤ r.source.spent := by
  fun_induction next r with
  | case1 r event size d hd => exact ⟨Nat.le_succ _, fun _ _ => Nat.le_refl _⟩
  | case2 r d hd window source hf ih =>
    have hspent : source.spent ≤ r.source.spent := (Window.spent_of_fill hf).2 rfl
    obtain ⟨hall, hfound⟩ := ih
    exact ⟨Nat.le_trans hall (Nat.succ_le_succ hspent),
      fun event hevent => Nat.le_trans (hfound event hevent) hspent⟩
  | case3 r d hd window source hf | case4 r d hd window source reason hf =>
    refine ⟨(Window.spent_of_fill hf).1, fun event hevent => ?_⟩
    cases hevent
  | case5 r error d hne hd =>
    refine ⟨Nat.le_succ _, fun event hevent => ?_⟩
    cases hevent

/-- An event uses at least 25 bytes of the stream. -/
theorem ahead_add_le_of_next {r r' : Reader} {event : Event} (h : r.next = (.ok event, r')) :
    r'.ahead + 25 ≤ r.ahead := by
  fun_induction next r with
  | case1 r event' size d hd =>
    cases h
    have hle := size_le_of_next hd
    have hleast : 25 ≤ size := Deserializer.le_size_of_next hd
    simp only [ahead, Window.bytes_consume, List.length_drop]
    omega
  | case2 r d hd window source hf ih =>
    -- bytes that were read were ahead before, too
    have hsum := (Window.length_of_fill_more hf).2
    have hrest := ih h
    simp only [ahead] at *
    omega
  | case3 | case4 | case5 => cases h

/-! ### Reading until a property holds -/

section

variable {τ : Type} (p : τ → Event → Bool × τ)

/-- One round: the next event is read, and the property is asked about it. -/
def watchRound (s : τ × Reader) : (Result Event × τ × Reader) ⊕ τ × Reader :=
  match s.2.next with
  | (.ok event, r') =>
    if (p s.1 event).1 then .inl (.ok event, (p s.1 event).2, r') else .inr ((p s.1 event).2, r')
  | (.error error, r') => .inl (.error error, s.1, r')

/-- An event was passed over. -/
def Passed (s s' : τ × Reader) : Prop :=
  ∃ event, s.2.next = (.ok event, s'.2) ∧ s'.2.ahead + 25 ≤ s.2.ahead

theorem advances_watchRound (s : τ × Reader) :
    Loop.Advances (watchRound p) Passed (fun s => s.2.watch p s.1) s := by
  obtain ⟨t, r⟩ := s
  unfold Loop.Advances watchRound
  dsimp only
  fun_cases watch p t r with
  | case1 event r' hnext hp => exact .inl (by simp only [hnext, hp, if_true])
  | case2 event r' hnext hp =>
    refine .inr ⟨((p t event).2, r'), ?_, rfl, event, hnext, ahead_add_le_of_next hnext⟩
    simp only [hnext, if_neg hp]
  | case3 error r' hnext => exact .inl (by simp only [hnext])

/-- Reading until a property holds ends: each event that is passed over has at least 25
    bytes. -/
theorem ends_watchRound (t : τ) (r : Reader) :
    Loop.Ends (watchRound p) Passed (t, r) (r.ahead / 25) (r.watch p t) := by
  have hcost (s s' : τ × Reader) (h : Passed s s') : s'.2.ahead + 25 ≤ s.2.ahead := by
    obtain ⟨-, -, hahead⟩ := h
    exact hahead
  exact Loop.ends_of_size (fun s => s.2.ahead) (by decide) (advances_watchRound p) hcost (t, r)

/-- The events that are passed over cost no read that gives nothing. -/
theorem spent_watch (t : τ) (r : Reader) :
    (r.watch p t).2.2.source.spent ≤ r.source.spent + 1 := by
  fun_induction watch p t r with
  | case1 t r event r' hnext hp | case3 t r error r' hnext =>
    have hspent := r.spent_next.1
    rwa [hnext] at hspent
  | case2 t r event r' hnext hp ih =>
    have hspent := r.spent_next.2 event (by rw [hnext])
    rw [hnext] at hspent
    exact Nat.le_trans ih (Nat.succ_le_succ hspent)

end

/-! ### Searching -/

/-- One round of a search: the window is searched. -/
def matchRound (interval : Interval) (matcher : Matcher) (r : Reader) :
    (Result Match × Reader) ⊕ Reader :=
  let used := r.searched interval matcher
  match (r.deserializer.find interval matcher r.window.bytes).result with
  | .ok found => .inl (.ok found, { used with events := r.events + 1 })
  | .error .incomplete | .error .noMatch =>
    match used.window.fill used.source with
    | (.more, window, source) => .inr { used with source, window }
    | (.exhausted, window, source) => .inl (.error .incomplete, { used with source, window })
    | (.failed reason, window, source) =>
      .inl (.error (.io reason), { used with source, window })
  | .error error => .inl (.error error, used)

section

variable {r : Reader} {interval : Interval} {matcher : Matcher}

theorem matchRound_of_asksForMore {filled : Window.Filled} {window : Window} {source : Source}
    (h : Deserializer.AsksForMore (r.deserializer.find interval matcher r.window.bytes).result)
    (hf : (r.searched interval matcher).window.fill r.source = (filled, window, source)) :
    let after := { r.searched interval matcher with source := source, window := window }
    matchRound interval matcher r =
      match filled with
      | .more => .inr after
      | .exhausted => .inl (.error .incomplete, after)
      | .failed reason => .inl (.error (.io reason), after) := by
  have hf : (r.searched interval matcher).window.fill (r.searched interval matcher).source =
    (filled, window, source) := hf
  unfold matchRound
  rcases h with h | h <;> cases filled <;> simp only [h, hf]

theorem matchRound_of_found {found : Match}
    (h : (r.deserializer.find interval matcher r.window.bytes).result = .ok found) :
    matchRound interval matcher r =
      .inl (.ok found, { r.searched interval matcher with events := r.events + 1 }) := by
  simp only [matchRound, h]

theorem matchRound_of_error {error : Error} (hincomplete : error ≠ .incomplete)
    (hnoMatch : error ≠ .noMatch)
    (h : (r.deserializer.find interval matcher r.window.bytes).result = .error error) :
    matchRound interval matcher r = .inl (.error error, r.searched interval matcher) := by
  unfold matchRound
  split <;> simp_all

end

theorem advances_matchRound (interval : Interval) (matcher : Matcher) (r : Reader) :
    Loop.Advances (matchRound interval matcher)
      (fun r r' => Refilled (r.searched interval matcher).stock r'.stock)
      (fun r => r.nextMatch interval matcher) r := by
  unfold Loop.Advances
  dsimp only
  unfold nextMatch
  fun_cases nextPassing r interval matcher.find? with
  | case1 search window d found hs => exact .inl (matchRound_of_found hs)
  | case2 search window d hs window' source hf =>
    exact .inr ⟨_, matchRound_of_asksForMore (.inl hs) hf, rfl, Window.refilled_of_fill hf⟩
  | case5 search window d hs window' source hf =>
    exact .inr ⟨_, matchRound_of_asksForMore (.inr hs) hf, rfl, Window.refilled_of_fill hf⟩
  | case3 search window d hs window' source hf
  | case4 search window d hs window' source reason hf =>
    exact .inl (matchRound_of_asksForMore (.inl hs) hf)
  | case6 search window d hs window' source hf
  | case7 search window d hs window' source reason hf =>
    exact .inl (matchRound_of_asksForMore (.inr hs) hf)
  | case8 search window d error hincomplete hnoMatch hs =>
    exact .inl (matchRound_of_error hincomplete hnoMatch hs)

/-- A search ends, too.  What is passed over in the window costs no read. -/
theorem ends_matchRound (interval : Interval) (matcher : Matcher) (r : Reader) :
    Loop.Ends (matchRound interval matcher)
      (fun r r' => Refilled (r.searched interval matcher).stock r'.stock) r r.source.data.length
      (r.nextMatch interval matcher) := by
  have hends := Loop.ends_of_size (fun r => r.source.data.length) Nat.one_pos
    (advances_matchRound interval matcher) (fun _ _ h => h.fewer) r
  rwa [Nat.div_one] at hends

theorem spent_nextMatch (interval : Interval) (matcher : Matcher) (r : Reader) :
    (r.nextMatch interval matcher).2.source.spent ≤ r.source.spent + 1 := by
  unfold nextMatch
  fun_induction nextPassing r interval matcher.find? with
  | case1 | case8 => exact Nat.le_succ _
  | case2 r search window d hs window' source hf ih
  | case5 r search window d hs window' source hf ih =>
    exact Nat.le_trans ih (Nat.succ_le_succ ((Window.spent_of_fill hf).2 rfl))
  | case3 r search window d hs window' source hf
  | case4 r search window d hs window' source reason hf
  | case6 r search window d hs window' source hf
  | case7 r search window d hs window' source reason hf => exact (Window.spent_of_fill hf).1

/-! ### All operations -/

/-- All loops of a reader end, and this is how often it reads its source at most. -/
structure Returns (r : Reader) : Prop where
  /-- A call of the source is made again as often as it is interrupted. -/
  called : ∀ room, Loop.Ends (r.source.callRound room) (fun calls calls' => calls' = calls + 1) 0
    (r.source.plan (room :: r.source.offered)).interrupts (r.source.read room)
  /-- Opening a reader of this source. -/
  opened : ∀ window, Loop.Ends openRound Refilled (r.source, window) r.source.data.length
    (openWith r.source window)
  openedReads : ∀ window, (openRefills r.source window).length ≤ r.source.data.length + 1
  /-- The next event. -/
  next : Loop.Ends nextRound (fun r r' => Refilled r.stock r'.stock) r r.source.data.length r.next
  nextReads : (r.source.roomsTo r.next.2.source).length ≤ r.source.data.length + 1
  /-- The next event with a property, which may keep a state. -/
  watch : ∀ {τ : Type} (p : τ → Event → Bool × τ) t,
    Loop.Ends (watchRound p) Passed (t, r) (r.ahead / 25) (r.watch p t)
  watchReads : ∀ {τ : Type} (p : τ → Event → Bool × τ) t,
    (r.source.roomsTo (r.watch p t).2.2.source).length ≤ r.source.data.length + 1
  /-- So it is for a property of the event alone. -/
  nextUntil : ∀ p, r.nextUntil p =
    ((r.watch (fun _ event => (p event, ())) ()).1, (r.watch (fun _ event => (p event, ())) ()).2.2)
  /-- The next event in an interval that matches a query. -/
  nextMatch : ∀ interval matcher, Loop.Ends (matchRound interval matcher)
    (fun r r' => Refilled (r.searched interval matcher).stock r'.stock) r r.source.data.length
    (r.nextMatch interval matcher)
  nextMatchReads : ∀ interval matcher,
    (r.source.roomsTo (r.nextMatch interval matcher).2.source).length ≤ r.source.data.length + 1
  /-- The search of a window. -/
  find : ∀ interval matcher, Loop.Ends (Deserializer.findRound interval matcher)
    Deserializer.Skipped (r.deserializer, 0, r.window.bytes) (r.window.bytes.length / 25)
    (r.deserializer.find interval matcher r.window.bytes)

/-- **Every operation of a reader returns**, and reads its source at most once more often
    than the source has bytes.  Each read but the last one moves a byte from the source to
    the window, and each event that is passed over takes 25 bytes or more from it. -/
theorem returns (r : Reader) : r.Returns where
  called := r.source.ends_callRound
  opened := ends_openRound r.source
  openedReads := length_openRefills_le r.source
  next := r.ends_nextRound
  nextReads := Source.length_roomsTo_le r.spent_next.1
  watch := fun p t => ends_watchRound p t r
  watchReads := fun p t => Source.length_roomsTo_le (spent_watch p t r)
  nextUntil := fun p => nextUntil_eq_watch p r
  nextMatch := fun interval matcher => ends_matchRound interval matcher r
  nextMatchReads := fun interval matcher =>
    Source.length_roomsTo_le (spent_nextMatch interval matcher r)
  find := fun interval matcher =>
    r.deserializer.ends_findRound interval matcher 0 r.window.bytes

end Reader

end LogCodec
