import LogCodec.Proofs.Reader.Requests

/-! # Sources that stumble

    A source may fail in a read, or give nothing although there is more, and go on
    later.  A request in which that happens is answered with an error.  It takes the
    reader past whole records, and no further.  Made again, it comes to what it would
    have come to at once.

    * `Reader.Resumes`: an operation that can be made again.  `resumes_next`,
      `resumes_nextUntil` and `resumes_nextMatch` say that all of them can.
    * `Client`: a caller that makes a request again until nothing goes wrong in it.
      `Client.resumed` compares it with a reader whose source does not stumble. -/

namespace LogCodec

open Source (Mishap)

namespace Reader

/-! ### Operations that can be made again -/

/-- The same answers, after which the readers are at the same place. -/
structure Same {α : Type} (a b : α × Reader) : Prop where
  answer : a.1 = b.1
  level : a.2.Level b.2

/-- Readers at the same place that advance alike are at the same place. -/
theorem Level.of_advances {r q r' q' : Reader} {d : Deserializer} {size : Nat} (h : r.Level q)
    (hr : r.Advances size d r') (hq : q.Advances size d q') (hevents : r'.events = q'.events) :
    r'.Level q' where
  deserializer := hr.deserializer.trans hq.deserializer.symm
  pending := by rw [hr.pending, hq.pending, h.pending]
  offset := by rw [hr.offset, hq.offset, h.offset]
  events := hevents

/-- An operation can be made again after something went wrong in it.  Compare a reader
    with one at the same place whose source is steady.  If nothing goes wrong, they
    give the same answer.  If something does, the answer says so and the reader passes
    over some records; from where it is then, a reader with a steady source gives the
    answer that was missed. -/
def Resumes {α : Type} (fail : Mishap → α) (op : Reader → α × Reader) : Prop :=
  ∀ r q : Reader, r.Level q → q.source.SteadyToEnd →
    ∃ m, r.Meets m (op r).2 ∧
      match m with
      | none => Same (op r) (op q)
      | some m => (op r).1 = fail m ∧ r.PassesWhole (op r).2 ∧
        ∀ q' : Reader, (op r).2.Level q' → q'.source.SteadyToEnd → Same (op q') (op q)

section

variable {α : Type} {fail : Mishap → α} {op : Reader → α × Reader}

/-- Readers with steady sources give the same answers. -/
theorem Resumes.same (h : Resumes fail op) {r q : Reader} (hlevel : r.Level q)
    (hr : r.source.SteadyToEnd) (hq : q.source.SteadyToEnd) : Same (op r) (op q) := by
  obtain ⟨m, hmeets, hm⟩ := h r q hlevel hq
  obtain rfl := hmeets.eq_none hr
  exact hm

theorem Resumes.steady (h : Resumes fail op) {r : Reader} (hr : r.source.SteadyToEnd) :
    (op r).2.source.SteadyToEnd := by
  obtain ⟨m, hmeets, -⟩ := h r r (.refl r) hr
  exact hmeets.steady hr

theorem Resumes.map {β : Type} (h : Resumes fail op) (f : α → β) :
    Resumes (fun m => f (fail m)) (fun r => (f (op r).1, (op r).2)) := by
  have hsame {a b : α × Reader} (hab : Same a b) : Same (f a.1, a.2) (f b.1, b.2) :=
    ⟨congrArg f hab.answer, hab.level⟩
  intro r q hlevel hq
  obtain ⟨m, hmeets, hm⟩ := h r q hlevel hq
  refine ⟨m, hmeets, ?_⟩
  cases m with
  | none => exact hsame hm
  | some m =>
    obtain ⟨hfail, hpasses, hagain⟩ := hm
    exact ⟨congrArg f hfail, hpasses, fun q' hl hs => hsame (hagain q' hl hs)⟩

end

/-! ### Reading the next event -/

/-- Readers at the same place whose deserializers say the same. -/
theorem Answers.same {r q : Reader} {said : Result (Event × Nat) × Deserializer}
    {a b : Result Event × Reader} (hlevel : r.Level q) (ha : r.Answers said a)
    (hb : q.Answers said b) : Same a b := by
  obtain ⟨result, d⟩ := said
  cases result with
  | ok found =>
    obtain ⟨hanswer, hadvances, hevents⟩ := ha
    obtain ⟨hanswer', hadvances', hevents'⟩ := hb
    refine ⟨hanswer.trans hanswer'.symm, hlevel.of_advances hadvances hadvances' ?_⟩
    rw [hevents, hevents', hlevel.events]
  | error error =>
    obtain ⟨hanswer, hadvances, hevents⟩ := ha
    obtain ⟨hanswer', hadvances', hevents'⟩ := hb
    refine ⟨hanswer.trans hanswer'.symm, hlevel.of_advances hadvances hadvances' ?_⟩
    rw [hevents, hevents', hlevel.events]

theorem next_same {r q : Reader} (hlevel : r.Level q)
    (hr : r.Answers (r.deserializer.next r.pending) r.next) (hq : q.source.SteadyToEnd) :
    Same r.next q.next := by
  have hanswers := next_answers hq
  rw [← hlevel.deserializer, ← hlevel.pending] at hanswers
  exact hr.same hlevel hanswers

/-- **The next event** can be asked for again. -/
theorem resumes_next : Resumes (fun m => .error m.error) next := by
  intro r q hlevel hq
  obtain ⟨m, hmeets, hm⟩ := r.next_meets
  refine ⟨m, hmeets, ?_⟩
  cases m with
  | none => exact next_same hlevel hm hq
  | some m =>
    obtain ⟨herror, hstays⟩ := hm
    refine ⟨herror, passesWhole_refl hstays, fun q' hlevel' hq' => ?_⟩
    exact next_same (hlevel'.symm.trans (hstays.symm.trans hlevel)) (next_answers hq') hq

/-! ### Reading until a property holds -/

/-- An event that was read was the last record that was used. -/
theorem Answers.passesWhole {r : Reader} {answer : Result Event × Reader}
    (h : r.Answers (r.deserializer.next r.pending) answer) : r.PassesWhole answer.2 := by
  obtain ⟨records, haccounts⟩ := Deserializer.accounts_next r.deserializer r.pending
  refine ⟨records, ?_⟩
  cases hsaid : r.deserializer.next r.pending with
  | mk result d =>
    rw [hsaid] at h haccounts
    cases result with
    | ok found =>
      exact passes_of_advances h.2.1 haccounts (Deserializer.size_of_next hsaid).2
    | error error => exact passes_of_advances h.2.1 haccounts (Nat.zero_le _)

section

variable {q r' : Reader} {p : Event → Bool}

theorem Same.nextUntil_of_ok {event : Event} (h : Same (.ok event, r') q.next) :
    q.nextUntil p = if p event then (.ok event, q.next.2) else q.next.2.nextUntil p :=
  Reader.nextUntil_of_ok (Prod.ext h.answer.symm rfl)

theorem Same.nextUntil_of_error {error : Error} (h : Same (.error error, r') q.next) :
    q.nextUntil p = (.error error, q.next.2) :=
  Reader.nextUntil_of_error (Prod.ext h.answer.symm rfl)

end

theorem nextUntil_same {r q : Reader} (p : Event → Bool) (hlevel : r.Level q)
    (hr : r.source.SteadyToEnd) (hq : q.source.SteadyToEnd) :
    Same (r.nextUntil p) (q.nextUntil p) := by
  -- along the events that are read
  fun_induction nextUntil p r generalizing q with
  | case1 r event r' hn hp =>
    have hnext := resumes_next.same hlevel hr hq
    rw [hn] at hnext
    rw [hnext.nextUntil_of_ok, if_pos hp]
    exact ⟨rfl, hnext.level⟩
  | case2 r event r' hn hp ih =>
    have hnext := resumes_next.same hlevel hr hq
    have hsteady := resumes_next.steady hr
    rw [hn] at hnext hsteady
    rw [hnext.nextUntil_of_ok, if_neg hp]
    exact ih hnext.level hsteady (resumes_next.steady hq)
  | case3 r error r' hn =>
    have hnext := resumes_next.same hlevel hr hq
    rw [hn] at hnext
    rw [hnext.nextUntil_of_error]
    exact ⟨rfl, hnext.level⟩

/-- Nothing goes wrong before an event that is read. -/
theorem next_of_ok {r r' : Reader} {event : Event} (h : r.next = (.ok event, r')) :
    r.Meets none r' ∧ r.PassesWhole r' ∧
      ∀ q, r.Level q → q.source.SteadyToEnd → Same (.ok event, r') q.next := by
  obtain ⟨m, hmeets, hm⟩ := r.next_meets
  cases m with
  | none =>
    have hpasses := hm.passesWhole
    have hsame (q : Reader) (hlevel : r.Level q) (hq : q.source.SteadyToEnd) :=
      next_same hlevel hm hq
    rw [h] at hmeets hpasses hsame
    exact ⟨hmeets, hpasses, hsame⟩
  | some m =>
    rw [h] at hm
    cases hm.1

/-- **Reading until a property holds** can be asked for again: the events that were
    passed over do not have the property. -/
theorem resumes_nextUntil (p : Event → Bool) :
    Resumes (fun m => .error m.error) (nextUntil p) := by
  intro r q hlevel hq
  -- along the events that are read
  fun_induction nextUntil p r generalizing q with
  | case1 r event r' hn hp =>
    obtain ⟨hmeets, -, hsame⟩ := next_of_ok hn
    have hnext := hsame q hlevel hq
    refine ⟨none, hmeets, ?_⟩
    rw [hnext.nextUntil_of_ok, if_pos hp]
    exact ⟨rfl, hnext.level⟩
  | case2 r event r' hn hp ih =>
    obtain ⟨hmeets, hpasses, hsame⟩ := next_of_ok hn
    have hnext := hsame q hlevel hq
    obtain ⟨m, hmeets', hm⟩ := ih q.next.2 hnext.level (resumes_next.steady hq)
    refine ⟨m, hmeets.trans hmeets', ?_⟩
    -- the other reader has read the same event
    rw [hnext.nextUntil_of_ok, if_neg hp]
    cases m with
    | none => exact hm
    | some m =>
      obtain ⟨hfail, hpasses', hagain⟩ := hm
      exact ⟨hfail, hpasses.trans hpasses', hagain⟩
  | case3 r error r' hn =>
    obtain ⟨m, hmeets, hm⟩ := r.next_meets
    cases m with
    | none =>
      have hnext := next_same hlevel hm hq
      rw [hn] at hmeets hnext
      refine ⟨none, hmeets, ?_⟩
      rw [hnext.nextUntil_of_error]
      exact ⟨rfl, hnext.level⟩
    | some m =>
      rw [hn] at hmeets hm
      obtain ⟨hfail, hstays⟩ := hm
      refine ⟨some m, hmeets, hfail, passesWhole_refl hstays, fun q' hlevel' hq' => ?_⟩
      exact nextUntil_same p (hlevel'.symm.trans (hstays.symm.trans hlevel)) hq' hq

/-! ### Searching -/

/-- Readers at the same place for which a search comes to the same. -/
theorem MatchAnswers.same {r q : Reader} {search : Deserializer.Search}
    {a b : Result Match × Reader} (hlevel : r.Level q) (ha : r.MatchAnswers search a)
    (hb : q.MatchAnswers search b) : Same a b := by
  refine ⟨ha.result.trans hb.result.symm, hlevel.of_advances ha.advances hb.advances ?_⟩
  rw [ha.events, hb.events, hlevel.events]

/-- What holds of one reader holds of another one at the same place. -/
theorem MatchAnswers.of_level {r q : Reader} {search : Deserializer.Search}
    {answer : Result Match × Reader} (hlevel : r.Level q) (h : q.MatchAnswers search answer)
    (hsteady : answer.2.source.SteadyToEnd) : r.MatchAnswers search answer where
  result := h.result
  advances :=
    ⟨h.advances.deserializer, by rw [h.advances.pending, hlevel.pending],
      by rw [h.advances.offset, hlevel.offset], fun _ => hsteady⟩
  events := by rw [h.events, hlevel.events]

/-- **A search** can be made again. -/
theorem resumes_nextMatch (interval : Interval) (matcher : Matcher) :
    Resumes (fun m => .error m.error) (nextMatch · interval matcher) := by
  intro r q hlevel hq
  obtain ⟨m, hmeets, hm⟩ := r.nextMatch_meets interval matcher
  have hanswers := nextMatch_answers hq interval matcher
  rw [← hlevel.deserializer, ← hlevel.pending] at hanswers
  refine ⟨m, hmeets, ?_⟩
  cases m with
  | none => exact hm.same hlevel hanswers
  | some m =>
    refine ⟨hm.result, hm.passes, fun q' hlevel' hq' => ?_⟩
    have hrest := nextMatch_answers hq' interval matcher
    rw [← hlevel'.deserializer, ← hlevel'.pending] at hrest
    exact (hm.again _ (hrest.of_level hlevel' (hrest.advances.steady hq'))).same hlevel hanswers

/-! ### Requests -/

/-- A mishap is no end of the stream. -/
theorem outcome_mishap {α : Type} (m : Mishap) :
    (outcome (.error m.error) : Outcome Error α) = .failed m.error := by
  cases m <;> rfl

theorem resumes_of_not_search {request : Request} (h : request.counting = true) :
    Resumes (fun m => .failed m.error) request.run := by
  have hmap := (resumes_nextUntil request.accepts).map fun result =>
    (outcome result).map (·, (none : Option Nat))
  simp only [outcome_mishap] at hmap
  have hrun : request.run = fun r => ((outcome (r.nextUntil request.accepts).1).map (·, none),
      (r.nextUntil request.accepts).2) := funext fun r => run_eq_nextUntil h
  rw [hrun]
  exact hmap

/-- **Every request** can be made again. -/
theorem resumes_run (request : Request) : Resumes (fun m => .failed m.error) request.run := by
  cases request with
  | search interval queries =>
    have hmap := (resumes_nextMatch interval (Matcher.ofQueries queries)).map fun result =>
      (outcome result).map fun found => (found.event, some found.query)
    simp only [outcome_mishap] at hmap
    exact hmap
  -- all others read until some event is accepted
  | _ => exact resumes_of_not_search rfl

/-- What is seen of a request from outside. -/
def replyTo (r : Reader) (request : Request) : Request.Reply :=
  ⟨(request.run r).1, (request.run r).2.window.streamOffset, (request.run r).2.events⟩

theorem serve_cons (r : Reader) (request : Request) (rest : List Request) :
    r.serve (request :: rest) = r.replyTo request :: (request.run r).2.serve rest := rfl

theorem Same.replyTo_eq {r q : Reader} {request : Request}
    (h : Same (request.run r) (request.run q)) : r.replyTo request = q.replyTo request := by
  rw [replyTo, replyTo, h.answer, h.level.offset, h.level.events]

/-- Readers with steady sources serve all requests alike. -/
theorem serve_eq_of_level {r q : Reader} (hlevel : r.Level q) (hr : r.source.SteadyToEnd)
    (hq : q.source.SteadyToEnd) (requests : List Request) :
    r.serve requests = q.serve requests := by
  induction requests generalizing r q with
  | nil => rfl
  | cons request rest ih =>
    have hrun := resumes_run request
    have hsame := hrun.same hlevel hr hq
    rw [serve_cons, serve_cons, hsame.replyTo_eq,
      ih hsame.level (hrun.steady hr) (hrun.steady hq)]

theorem Same.serve_eq {r q : Reader} {request : Request}
    (h : Same (request.run r) (request.run q)) (hr : r.source.SteadyToEnd)
    (hq : q.source.SteadyToEnd) (rest : List Request) :
    r.serve (request :: rest) = q.serve (request :: rest) := by
  have hrun := resumes_run request
  rw [serve_cons, serve_cons, h.replyTo_eq,
    serve_eq_of_level h.level (hrun.steady hr) (hrun.steady hq)]

/-- The reader with all further bytes at hand. -/
def calmed (r : Reader) : Reader := { r with source := .inChunks 1 r.source.data }

theorem level_calmed (r : Reader) : r.Level r.calmed := ⟨rfl, rfl, rfl, rfl⟩

theorem steady_calmed (r : Reader) : r.calmed.source.SteadyToEnd :=
  (Source.steady_inChunks (by decide) _).toEnd

end Reader

open Request (Reply)

/-! ### Callers that do not give up -/

/-- A caller that has made some requests of a reader, and has others to make. -/
structure Client where
  reader : Reader
  /-- The requests that are not answered yet. -/
  todo : List Request
  /-- The answers to the requests before them. -/
  replies : List Reply

namespace Client

/-- Makes the next request.  If something went wrong with the source, the request is
    still to be made. -/
def call (c : Client) : Client :=
  match c.todo with
  | [] => c
  | request :: rest =>
    let reader := (request.run c.reader).2
    match c.reader.mishap? reader with
    | some _ => { c with reader }
    | none => ⟨reader, rest, c.replies ++ [c.reader.replyTo request]⟩

/-- The caller and a reader with a steady source, which serves the same requests
    without a break. -/
structure Resumed (q : Reader) (requests : List Request) (c : Client) : Prop where
  /-- The requests are answered in turn, as they are without a break. -/
  replies : c.replies = (q.serve requests).take c.replies.length
  todo : c.todo = requests.drop c.replies.length
  /-- A request in which something goes wrong is answered with that.  The reader passes
      over whole records, and no byte of others. -/
  stumbled : ∀ request rest m, c.todo = request :: rest →
    c.reader.mishap? (request.run c.reader).2 = some m →
    (request.run c.reader).1 = .failed m.error ∧ c.reader.PassesWhole (request.run c.reader).2
  /-- A request in which nothing goes wrong is answered as it is without a break, however
      often it was made before. -/
  answered : ∀ request rest, c.todo = request :: rest →
    c.reader.mishap? (request.run c.reader).2 = none →
    (q.serve requests)[c.replies.length]? = some (c.reader.replyTo request)
  /-- Once nothing goes wrong any more, all that is left is answered so. -/
  rest : c.reader.source.SteadyToEnd →
    c.reader.serve c.todo = (q.serve requests).drop c.replies.length

/-- The invariant: a reader with a steady source at the place of the caller's one gives
    the answers that are missing. -/
structure Follows (q : Reader) (requests : List Request) (c : Client) : Prop where
  todo : c.todo = requests.drop c.replies.length
  replies : ∀ q' : Reader, c.reader.Level q' → q'.source.SteadyToEnd →
    c.replies ++ q'.serve c.todo = q.serve requests

section

variable {q : Reader} {requests : List Request} {c : Client}

theorem call_of_nil (h : c.todo = []) : c.call = c := by
  simp only [call, h]

theorem call_of_some {request : Request} {rest : List Request} {m : Mishap}
    (h : c.todo = request :: rest)
    (hm : c.reader.mishap? (request.run c.reader).2 = some m) :
    c.call = { c with reader := (request.run c.reader).2 } := by
  simp only [call, h, hm]

theorem call_of_none {request : Request} {rest : List Request}
    (h : c.todo = request :: rest)
    (hm : c.reader.mishap? (request.run c.reader).2 = none) :
    c.call = ⟨(request.run c.reader).2, rest, c.replies ++ [c.reader.replyTo request]⟩ := by
  simp only [call, h, hm]

theorem Follows.call (h : Follows q requests c) : Follows q requests c.call := by
  cases htodo : c.todo with
  | nil => rwa [call_of_nil htodo]
  | cons request rest =>
    have hreplies := h.replies _ c.reader.level_calmed c.reader.steady_calmed
    have hsteady := c.reader.steady_calmed
    obtain ⟨m, hmeets, hm⟩ :=
      Reader.resumes_run request c.reader _ c.reader.level_calmed hsteady
    rw [htodo] at hreplies
    cases m with
    | none =>
      rw [call_of_none htodo hmeets.mishap?_eq]
      constructor
      · have hdrop := h.todo
        rw [htodo] at hdrop
        rw [List.length_append, List.length_singleton, ← List.drop_drop, ← hdrop]
        rfl
      · intro q' hlevel hq'
        have hafter := (Reader.resumes_run request).steady hsteady
        rw [Reader.serve_cons, ← hm.replyTo_eq,
          ← Reader.serve_eq_of_level (hlevel.symm.trans hm.level) hq' hafter] at hreplies
        rw [← hreplies, List.append_assoc, List.singleton_append]
    | some m =>
      rw [call_of_some htodo hmeets.mishap?_eq]
      obtain ⟨-, -, hagain⟩ := hm
      constructor
      · exact h.todo
      · intro q' hlevel hq'
        -- the request that is made again comes to what it would have come to before
        rw [htodo, (hagain q' hlevel hq').serve_eq hq' hsteady rest]
        exact hreplies

theorem resumed_of_follows (h : Follows q requests c) : Resumed q requests c := by
  have hcalmed := h.replies _ c.reader.level_calmed c.reader.steady_calmed
  refine ⟨?_, h.todo, ?_, ?_, fun hsteady => ?_⟩
  · rw [← hcalmed, List.take_left]
  · intro request rest m _ hm
    obtain ⟨m', hmeets, hm'⟩ := Reader.resumes_run request c.reader _ c.reader.level_calmed
      c.reader.steady_calmed
    obtain rfl : m' = some m := hmeets.mishap?_eq.symm.trans hm
    exact ⟨hm'.1, hm'.2.1⟩
  · intro request rest htodo hm
    obtain ⟨m', hmeets, hm'⟩ := Reader.resumes_run request c.reader _ c.reader.level_calmed
      c.reader.steady_calmed
    obtain rfl : m' = none := hmeets.mishap?_eq.symm.trans hm
    rw [htodo, Reader.serve_cons, ← hm'.replyTo_eq] at hcalmed
    rw [← hcalmed, List.getElem?_append_right (Nat.le_refl _), Nat.sub_self,
      List.getElem?_cons_zero]
  · rw [← h.replies c.reader (.refl _) hsteady, List.drop_left]

end

/-- **A source that stumbles loses nothing.**  Take any reader, whatever its source does,
    and one at the same place whose source is steady.  The same requests are made of
    both, of the first one again and again as long as something goes wrong.  After any
    number of calls its caller has the answers that the second reader gives in one go. -/
theorem resumed {r q : Reader} (hlevel : r.Level q) (hsteady : q.source.SteadyToEnd)
    (requests : List Request) (calls : Nat) :
    Resumed q requests (call^[calls] ⟨r, requests, []⟩) := by
  apply resumed_of_follows
  induction calls with
  | zero =>
    refine ⟨rfl, fun q' hlevel' hq' => ?_⟩
    exact Reader.serve_eq_of_level (hlevel'.symm.trans hlevel) hq' hsteady requests
  | succ calls ih =>
    rw [Function.iterate_succ_apply']
    exact ih.call

/-- A source that fails in one turn, gives nothing in the next, and then ten bytes. -/
def stumbling (data : Bytes) : Source where
  data := data
  plan := fun offered =>
    ⟨0, match offered.length % 3 with
      | 1 => .fail "busy"
      | 2 => .give 0
      | _ => .give 10⟩
  offered := []
  ending := none

/-- A record and the end of the stream, from a source that stumbles. -/
theorem resumed_one_event :
    let bytes : Bytes :=
      [1, 0, 0, 0, 1, 0x41, 0, 0, 0, 0, 0, 0, 0, 0, 0, 0, 0, 0, 0, 0, 0, 0, 0, 0, 0, 7] ++ [0]
    let d := Deserializer.ofPreamble ⟨.eightByte, ⟨"", "", ""⟩, 0⟩
    let r : Reader := ⟨stumbling bytes, d, Window.empty 16, 0⟩
    let q : Reader := ⟨.inChunks 7 bytes, d, Window.empty 16, 0⟩
    let requests : List Request := [.untilTimestamp 5, .search Interval.all [⟨"*", true⟩]]
    r.Level q ∧ q.source.SteadyToEnd ∧
      q.serve requests = [⟨.found (⟨[0x41], 7⟩, none), 26, 1⟩, ⟨.done, 26, 1⟩] ∧
      ∀ calls, Resumed q requests (call^[calls] ⟨r, requests, []⟩) := by
  intro bytes d r q requests
  have hlevel : r.Level q := ⟨rfl, rfl, rfl, rfl⟩
  have hsteady : q.source.SteadyToEnd := (Source.steady_inChunks (by decide) _).toEnd
  refine ⟨hlevel, hsteady, ?_, resumed hlevel hsteady requests⟩
  have hlaid : Laid .eightByte 0 bytes [⟨⟨[0x41], 7⟩, 26⟩] .endOfStream :=
    .record (r := ⟨⟨[0x41], [], [], []⟩, 7⟩) rfl (by decide) (.finish 7 [])
  have hpending : q.pending = bytes := by
    rw [Reader.pending, Window.bytes_empty, List.nil_append]
    rfl
  have hat : q.At .endOfStream ⟨[⟨⟨[0x41], 7⟩, 26⟩], 0, 0⟩ := by
    refine ⟨hsteady, ?_, rfl, rfl⟩
    rw [hpending]
    exact .live ⟨rfl, rfl⟩ hlaid
  exact Reader.serve_expected hat requests

end Client

end LogCodec
