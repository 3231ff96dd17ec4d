import LogCodec.Proofs.Reader.Mishap
import LogCodec.Proofs.Stream.Deserializer
import LogCodec.Proofs.Stream.Preamble
import LogCodec.Reader.Collect

/-! # A reader answers as its deserializer would

    What a reader does with its window, read by read, is what its deserializer
    would do with all pending bytes at once.  The deserializer asks for more
    bytes when the window ends too early, and goes on as if they had been there
    from the start.

    * `openWith_answers`: reading the preamble.
    * `next_meets`: reading the next event, whatever the source does.  `next_answers`
      is the case of a steady source.
    * `nextMatch_meets`, `nextMatch_answers`: searching. -/

namespace LogCodec.Reader

/-! ### Reading the preamble -/

/-- The reader has read the preamble of these bytes. -/
structure Opened (r : Reader) (d : Deserializer) (offset : Nat) (bytes : Bytes) : Prop where
  deserializer : r.deserializer = d
  pending : r.pending = bytes
  offset : r.window.streamOffset = offset
  events : r.events = 0
  steady : r.source.SteadyToEnd

/-- What comes of opening a reader when the deserializer says this of the bytes.
    The error may report fewer bytes in place of the magic number. -/
def OpenAnswers (offset : Nat) (bytes : Bytes) (said : Result (Deserializer × Nat))
    (answer : Result Reader) : Prop :=
  match said with
  | .ok (d, size) => ∃ r, answer = .ok r ∧ r.Opened d (offset + size) (bytes.drop size)
  | .error error => ∃ error', answer = .error error' ∧ error'.withoutMagic = error.withoutMagic

theorem ofBytes_append {bytes : Bytes} (h : Deserializer.ofBytes bytes ≠ .error .incomplete)
    (more : Bytes) :
    Result.Alike (Deserializer.ofBytes (bytes ++ more)) (Deserializer.ofBytes bytes) := by
  have hne : Preamble.ofBytes bytes ≠ .error .incomplete := by
    intro hp
    exact h (by rw [Deserializer.ofBytes, hp]; rfl)
  exact (Preamble.ofBytes_append hne more).map _

/-- **The preamble** is the one that the deserializer reads from all bytes. -/
theorem openWith_answers {source : Source} {window : Window} (h : source.SteadyToEnd) :
    OpenAnswers window.streamOffset (window.bytes ++ source.data)
      (Deserializer.ofBytes (window.bytes ++ source.data)) (openWith source window) := by
  -- along the reads of the source
  fun_induction openWith source window with
  | case1 source window d size hp =>
    -- the window holds the whole preamble
    have halike := ofBytes_append (by rw [hp]; simp) source.data
    rw [hp, Result.alike_ok_iff] at halike
    rw [halike]
    have hsize := Deserializer.size_of_ofBytes hp
    refine ⟨_, rfl, rfl, ?_, Window.streamOffset_consume window size hsize, rfl, h⟩
    rw [pending, Window.bytes_consume, List.drop_append_of_le_length hsize]
  | case2 source window hp window' source' hf ih =>
    -- it does not yet, and there were more bytes
    have hfill := Window.refills_of_fill hf
    have := ih (hfill.steady h)
    rwa [hfill.bytes, hfill.offset] at this
  | case3 source window hp window' source' hf =>
    -- the stream is cut short inside the preamble
    rw [Window.data_of_fill_exhausted h hf, List.append_nil, hp]
    exact ⟨_, rfl, rfl⟩
  | case4 source window hp reason window' source' hf =>
    exact (Window.not_failed_of_steady h hf).elim
  | case5 source window error hne hp =>
    -- the window starts with no preamble, nor do all bytes
    have hsettled : Deserializer.ofBytes window.bytes ≠ .error .incomplete := by
      rw [hp]
      intro he
      cases he
      exact hne rfl
    have halike := ofBytes_append hsettled source.data
    rw [hp, Result.alike_error_iff] at halike
    obtain ⟨error', he, hmagic⟩ := halike
    rw [he]
    exact ⟨_, rfl, hmagic.symm⟩

theorem open_answers_of_toEnd {source : Source} (h : source.SteadyToEnd) (capacity : Nat) :
    OpenAnswers 0 source.data (Deserializer.ofBytes source.data) (Reader.open source capacity) := by
  have := @openWith_answers source (Window.empty capacity) h
  rwa [Window.bytes_empty, List.nil_append] at this

theorem open_answers {source : Source} (h : source.Steady) (capacity : Nat) :
    OpenAnswers 0 source.data (Deserializer.ofBytes source.data) (Reader.open source capacity) :=
  open_answers_of_toEnd h.toEnd capacity

/-! ### Reading the next event -/

/-- What the reader answers when its deserializer says this of the pending bytes. -/
def Answers (r : Reader) (said : Result (Event × Nat) × Deserializer)
    (answer : Result Event × Reader) : Prop :=
  match said with
  | (.ok (event, size), d) =>
    answer.1 = .ok event ∧ r.Advances size d answer.2 ∧ answer.2.events = r.events + 1
  | (.error error, d) =>
    answer.1 = .error error ∧ r.Advances 0 d answer.2 ∧ answer.2.events = r.events

/-- Nothing is used before the answer. -/
theorem Answers.after {r r' : Reader} {d : Deserializer}
    {said : Result (Event × Nat) × Deserializer} {answer : Result Event × Reader}
    (h : r'.Answers said answer) (hr : r.Advances 0 d r') (hevents : r'.events = r.events) :
    r.Answers said answer := by
  obtain ⟨result, d'⟩ := said
  cases result with
  | ok found =>
    obtain ⟨hanswer, hadvances, hcount⟩ := h
    have := hr.trans hadvances
    rw [Nat.zero_add] at this
    exact ⟨hanswer, this, by rw [hcount, hevents]⟩
  | error error =>
    obtain ⟨hanswer, hadvances, hcount⟩ := h
    exact ⟨hanswer, hr.trans hadvances, by rw [hcount, hevents]⟩

/-- The next event, whatever the source does.  If something goes wrong, the reader
    stays where it is. -/
theorem next_meets (r : Reader) :
    ∃ m, r.Meets m r.next.2 ∧
      match m with
      | none => r.Answers (r.deserializer.next r.pending) r.next
      | some m => r.next.1 = .error m.error ∧ r.Level r.next.2 := by
  -- along the reads of the source
  fun_induction next r with
  | case1 r event size d hn =>
    -- the window holds the whole record
    have hsettled : (r.deserializer.next r.window.bytes).1 ≠ .error .incomplete := by simp [hn]
    refine ⟨none, .of_source_eq rfl, ?_⟩
    rw [pending, Deserializer.next_append hsettled, hn]
    exact ⟨rfl, advances_consume (Deserializer.size_of_next hn).2 _, rfl⟩
  | case2 r d hn window source hf ih =>
    -- it does not yet, and the deserializer is as it was before
    obtain ⟨-, rfl⟩ := Deserializer.next_of_incomplete hn
    have hlevel := level_fill hf
    obtain ⟨m, hmeets, hm⟩ := ih
    refine ⟨m, (meets_fill hf rfl).trans hmeets, ?_⟩
    cases m with
    | none =>
      dsimp only at hm
      rw [← hlevel.pending] at hm
      exact hm.after (advances_fill hf) rfl
    | some m =>
      obtain ⟨herror, hstays⟩ := hm
      exact ⟨herror, hlevel.trans hstays⟩
  | case3 r d hn window source hf =>
    obtain ⟨-, rfl⟩ := Deserializer.next_of_incomplete hn
    have hmeets : r.Meets _ ⟨source, r.deserializer, window, r.events⟩ := meets_fill hf rfl
    by_cases hdata : source.data = []
    · -- the stream is cut short inside the record
      rw [Window.Filled.mishap?, if_pos hdata] at hmeets
      refine ⟨none, hmeets, ?_⟩
      rw [pending, Window.data_eq_of_fill_exhausted hf, hdata, List.append_nil, hn]
      exact ⟨rfl, advances_fill hf, rfl⟩
    · rw [Window.Filled.mishap?, if_neg hdata] at hmeets
      exact ⟨_, hmeets, rfl, level_fill hf⟩
  | case4 r d hn reason window source hf =>
    obtain ⟨-, rfl⟩ := Deserializer.next_of_incomplete hn
    exact ⟨_, meets_fill hf rfl, rfl, level_fill hf⟩
  | case5 r error d hne hn =>
    -- more bytes would not help
    have hsettled : (r.deserializer.next r.window.bytes).1 ≠ .error .incomplete := by
      rw [hn]
      intro he
      cases he
      exact hne rfl
    refine ⟨none, .of_source_eq rfl, ?_⟩
    rw [pending, Deserializer.next_append hsettled, hn]
    exact ⟨rfl, ⟨rfl, rfl, rfl, id⟩, rfl⟩

/-- **The next event** is the one that the deserializer reads from the pending
    bytes, in whatever chunks they come. -/
theorem next_answers {r : Reader} (h : r.source.SteadyToEnd) :
    r.Answers (r.deserializer.next r.pending) r.next := by
  obtain ⟨m, hmeets, hm⟩ := r.next_meets
  obtain rfl := hmeets.eq_none h
  exact hm

/-! ### Searching -/

/-- What the reader answers when a search of the pending bytes comes to this.
    Only an event that is found is counted. -/
structure MatchAnswers (r : Reader) (search : Deserializer.Search)
    (answer : Result Match × Reader) : Prop where
  result : answer.1 = search.answer
  advances : r.Advances search.consumed search.after answer.2
  events : answer.2.events = if search.answer.isOk then r.events + 1 else r.events

section

variable {r : Reader} {interval : Interval} {matcher : Matcher}

/-- A search that is settled in the window is settled for all pending bytes. -/
theorem find_pending_of_settled
    (h : (r.deserializer.find interval matcher r.window.bytes).answer ≠ .error .incomplete) :
    r.deserializer.find interval matcher r.pending =
      r.deserializer.find interval matcher r.window.bytes := by
  rw [pending, Deserializer.find_append_of_settled _ h]

/-- Using what a search used, and then reading from the source. -/
theorem advances_find_fill {filled : Window.Filled} {window : Window} {source : Source}
    (hf : (r.window.consume (r.deserializer.find interval matcher r.window.bytes).consumed
      (Deserializer.consumed_find_le ..)).fill r.source = (filled, window, source)) :
    r.Advances (r.deserializer.find interval matcher r.window.bytes).consumed
      (r.deserializer.find interval matcher r.window.bytes).after
      { r with
        source := source
        deserializer := (r.deserializer.find interval matcher r.window.bytes).after
        window := window } := by
  have hconsume := advances_consume (d := (r.deserializer.find interval matcher
    r.window.bytes).after) (Deserializer.consumed_find_le r.deserializer interval matcher
      r.window.bytes) r.events
  exact hconsume.trans (advances_fill hf)

/-- A search that asked for more bytes is taken up again after they were read. -/
theorem MatchAnswers.after {r' : Reader} {answer : Result Match × Reader}
    (h : (r.deserializer.find interval matcher r.window.bytes).answer = .error .incomplete)
    (hr : r.Advances (r.deserializer.find interval matcher r.window.bytes).consumed
      (r.deserializer.find interval matcher r.window.bytes).after r')
    (hevents : r'.events = r.events)
    (hanswer : r'.MatchAnswers (r'.deserializer.find interval matcher r'.pending) answer) :
    r.MatchAnswers (r.deserializer.find interval matcher r.pending) answer := by
  obtain ⟨hresult, hconsumed, hafter⟩ := Deserializer.find_append_of_incomplete r.source.data h
  have hpending : r'.pending = r.window.bytes.drop
      (r.deserializer.find interval matcher r.window.bytes).consumed ++ r.source.data := by
    rw [hr.pending, pending,
      List.drop_append_of_le_length (Deserializer.consumed_find_le ..)]
  rw [hr.deserializer, hpending] at hanswer
  refine ⟨?_, ?_, ?_⟩
  · rw [hanswer.result, pending, hresult]
  · rw [pending, hconsumed, hafter]
    exact hr.trans hanswer.advances
  · rw [hanswer.events, pending, hresult, hevents]

/-- A search that asked for more bytes when there are none. -/
theorem matchAnswers_of_exhausted {window : Window} {source : Source}
    (hdata : r.source.data = [])
    (h : (r.deserializer.find interval matcher r.window.bytes).answer = .error .incomplete)
    (hf : (r.window.consume (r.deserializer.find interval matcher r.window.bytes).consumed
      (Deserializer.consumed_find_le ..)).fill r.source = (.exhausted, window, source)) :
    r.MatchAnswers (r.deserializer.find interval matcher r.pending)
      (.error .incomplete, { r with
        source := source
        deserializer := (r.deserializer.find interval matcher r.window.bytes).after
        window := window }) := by
  rw [pending, hdata, List.append_nil]
  exact ⟨h.symm, advances_find_fill hf, by rw [h]; rfl⟩

/-- What a search of the window used are records. -/
theorem passesWhole_of_find {r' : Reader}
    (h : r.Advances (r.deserializer.find interval matcher r.window.bytes).consumed
      (r.deserializer.find interval matcher r.window.bytes).after r') : r.PassesWhole r' := by
  have hconsumed := Deserializer.consumed_find_le r.deserializer interval matcher r.window.bytes
  obtain ⟨records, haccounts⟩ :=
    Deserializer.accounts_find r.deserializer interval matcher r.window.bytes
  have htake : r.pending.take (r.deserializer.find interval matcher r.window.bytes).consumed =
      r.window.bytes.take (r.deserializer.find interval matcher r.window.bytes).consumed :=
    List.take_append_of_le_length hconsumed
  rw [← htake] at haccounts
  refine ⟨records, passes_of_advances h haccounts ?_⟩
  rw [pending, List.length_append]
  exact Nat.le_add_right_of_le hconsumed

variable (r interval matcher)

/-- What can be said of a search in which something went wrong. -/
structure MatchMisses (m : Source.Mishap) (answer : Result Match × Reader) : Prop where
  result : answer.1 = .error m.error
  passes : r.PassesWhole answer.2
  /-- Whoever goes on from there finds what was to be found. -/
  again : ∀ answer', answer.2.MatchAnswers
      (answer.2.deserializer.find interval matcher answer.2.pending) answer' →
    r.MatchAnswers (r.deserializer.find interval matcher r.pending) answer'

variable {r interval matcher}

/-- Something goes wrong after a search of the window that asked for more bytes. -/
theorem matchMisses_of_find {r' : Reader} (m : Source.Mishap)
    (h : (r.deserializer.find interval matcher r.window.bytes).answer = .error .incomplete)
    (hr : r.Advances (r.deserializer.find interval matcher r.window.bytes).consumed
      (r.deserializer.find interval matcher r.window.bytes).after r')
    (hevents : r'.events = r.events) :
    r.MatchMisses interval matcher m (.error m.error, r') :=
  ⟨rfl, passesWhole_of_find hr, fun _ hanswer => hanswer.after h hr hevents⟩

end

/-- A search, whatever the source does. -/
theorem nextMatch_meets (r : Reader) (interval : Interval) (matcher : Matcher) :
    ∃ m, r.Meets m (r.nextMatch interval matcher).2 ∧
      match m with
      | none => r.MatchAnswers (r.deserializer.find interval matcher r.pending)
        (r.nextMatch interval matcher)
      | some m => r.MatchMisses interval matcher m (r.nextMatch interval matcher) := by
  -- along the reads of the source
  unfold nextMatch
  fun_induction nextPassing r interval matcher.find? with
  | case1 r search window deserializer found hs =>
    -- the window holds an event that matches
    have hanswer : (r.deserializer.find interval matcher r.window.bytes).answer = .ok found := by
      show search.answer = _
      rw [Deserializer.Search.answer, hs]
    refine ⟨none, .of_source_eq rfl, ?_⟩
    rw [find_pending_of_settled (by rw [hanswer]; simp)]
    exact ⟨hanswer.symm, advances_consume _ _, by rw [hanswer]; rfl⟩
  | case2 r search window deserializer hs window' source hf ih
  | case5 r search window deserializer hs window' source hf ih =>
    -- what was searched is used up, whether or not records were skipped
    have hanswer : (r.deserializer.find interval matcher r.window.bytes).answer =
        .error .incomplete := by
      show search.answer = _
      rw [Deserializer.Search.answer, hs]
    have hadvances := advances_find_fill hf
    obtain ⟨m, hmeets, hm⟩ := ih
    refine ⟨m, (meets_fill hf rfl).trans hmeets, ?_⟩
    cases m with
    | none => exact hm.after hanswer hadvances rfl
    | some m =>
      refine ⟨hm.result, (passesWhole_of_find hadvances).trans hm.passes, fun answer' h => ?_⟩
      exact (hm.again answer' h).after hanswer hadvances rfl
  | case3 r search window deserializer hs window' source hf
  | case6 r search window deserializer hs window' source hf =>
    have hanswer : (r.deserializer.find interval matcher r.window.bytes).answer =
        .error .incomplete := by
      show search.answer = _
      rw [Deserializer.Search.answer, hs]
    have hmeets : r.Meets _ ⟨source, deserializer, window', r.events⟩ := meets_fill hf rfl
    by_cases hdata : source.data = []
    · -- there is nothing more
      rw [Window.Filled.mishap?, if_pos hdata] at hmeets
      rw [← Window.data_eq_of_fill_exhausted hf] at hdata
      exact ⟨none, hmeets, matchAnswers_of_exhausted hdata hanswer hf⟩
    · rw [Window.Filled.mishap?, if_neg hdata] at hmeets
      exact ⟨_, hmeets, matchMisses_of_find .nothing hanswer (advances_find_fill hf) rfl⟩
  | case4 r search window deserializer hs reason window' source hf
  | case7 r search window deserializer hs reason window' source hf =>
    have hanswer : (r.deserializer.find interval matcher r.window.bytes).answer =
        .error .incomplete := by
      show search.answer = _
      rw [Deserializer.Search.answer, hs]
    have hmisses := matchMisses_of_find (.failed reason) hanswer (advances_find_fill hf) rfl
    exact ⟨_, meets_fill hf rfl, hmisses⟩
  | case8 r search window deserializer error hne hne' hs =>
    -- more bytes would not help
    have hanswer : (r.deserializer.find interval matcher r.window.bytes).answer = .error error := by
      show search.answer = _
      rw [Deserializer.Search.answer, hs]
      split
      · rename_i he
        exact absurd (Except.error.inj he) hne'
      · rfl
    refine ⟨none, .of_source_eq rfl, ?_⟩
    rw [find_pending_of_settled (by rw [hanswer]; simpa using hne)]
    exact ⟨hanswer.symm, advances_consume _ _, by rw [hanswer]; rfl⟩

/-- **A search** finds what the deserializer finds in the pending bytes, in
    whatever chunks they come. -/
theorem nextMatch_answers {r : Reader} (h : r.source.SteadyToEnd) (interval : Interval)
    (matcher : Matcher) :
    r.MatchAnswers (r.deserializer.find interval matcher r.pending)
      (r.nextMatch interval matcher) := by
  obtain ⟨m, hmeets, hm⟩ := r.nextMatch_meets interval matcher
  obtain rfl := hmeets.eq_none h
  exact hm

end LogCodec.Reader
