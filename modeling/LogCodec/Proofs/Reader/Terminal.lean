import LogCodec.Proofs.Reader.Collect
import LogCodec.Proofs.Reader.Refills
import Mathlib.Data.List.Basic

/-! # Terminal states

    Some answers are final.  Once the end of a stream was met, or a byte that is no tag, or
    the stream was closed, every later call is answered in the same way.  Such a call
    changes nothing and does not read the source.  A record that cannot be decoded is final
    for all requests but searches, which may pass over it.

    * `Deserializer.Refuses`: bytes from which nothing is read any more, and why.
      `Deserializer.refuses_of_next` and `Deserializer.refuses_of_findFrom` say that every
      failure that is no lack of bytes leads there.
    * `Reader.Refuses`: the same for the window of a reader.
    * `Deserializer.Keeps`, `Reader.Keeps`: an answer that does not change any more.
    * `Deserializer.Absorbs`, `Reader.Absorbs`: what the terminal states are, and how they
      are reached.
    * `Reader.ends_last`: this holds of all deserializers and readers, at any time. -/

namespace LogCodec

/-- What one of the steps of a run brings about, and all steps keep, holds at its end. -/
theorem foldl_of_mem {σ ι : Type} {step : σ → ι → σ} (p : σ → Prop) {i : ι}
    (hbegins : ∀ s, p (step s i)) (hkeeps : ∀ s j, p s → p (step s j)) {steps : List ι}
    (h : i ∈ steps) (s : σ) : p (steps.foldl step s) := by
  have hfrom (rest : List ι) {s : σ} (hs : p s) : p (rest.foldl step s) := by
    induction rest generalizing s with
    | nil => exact hs
    | cons j rest ih => exact ih (hkeeps s j hs)
  obtain ⟨front, back, rfl⟩ := List.append_of_mem h
  rw [List.foldl_append, List.foldl_cons]
  exact hfrom back (hbegins _)

namespace Deserializer

variable {d d' : Deserializer} {bytes : Bytes} {error : Error}

/-! ### What stops a deserializer -/

theorem step_of_closed (h : d.closed = true) (bytes : Bytes) :
    d.step bytes = .stop .closed d := by
  unfold step
  rw [if_pos h]

theorem step_of_ended (hclosed : d.closed = false) (h : d.ended = true) (bytes : Bytes) :
    d.step bytes = .stop .endOfStream d := by
  unfold step
  rw [if_neg (Bool.eq_false_iff.1 hclosed), if_pos h]

/-- A deserializer that met the end is open. -/
theorem of_step_endOfStream (h : d.step bytes = .stop .endOfStream d') :
    d'.closed = false ∧ d'.ended = true := by
  unfold step at h
  split at h
  · cases h
  rename_i hclosed
  have hclosed : d.closed = false := Bool.eq_false_iff.2 hclosed
  split at h
  · rename_i hended
    cases h
    exact ⟨hclosed, hended⟩
  split at h <;> cases h
  exact ⟨hclosed, rfl⟩

/-- What stops a deserializer stops it again. -/
theorem step_again (h : d.step bytes = .stop error d') : d'.step bytes = .stop error d' := by
  obtain ⟨-, hafter⟩ := step_eq_stop h
  rcases hafter with hsame | ⟨hend, -⟩
  · rw [hsame] at h ⊢
    exact h
  · rw [hend] at h ⊢
    obtain ⟨hclosed, hended⟩ := of_step_endOfStream h
    exact step_of_ended hclosed hended bytes

/-! ### Bytes from which nothing is read -/

/-- Reading from these bytes fails with this error, and changes nothing.  Unless a message
    cannot be put together, a search fails in the same way. -/
structure Refuses (error : Error) (bytes : Bytes) (d : Deserializer) : Prop where
  next : d.next bytes = (.error error, d)
  step : (∀ fault, error ≠ .decode fault) → d.step bytes = .stop error d

theorem refuses_of_stop (h : d.step bytes = .stop error d) : d.Refuses error bytes := by
  refine ⟨?_, fun _ => h⟩
  simp only [Deserializer.next, h]

theorem refuses_of_fault {encoded : Encoded d.width} {timestamp : Int64} {size : Nat}
    {text : Bytes} {fault : DecodeFault} (hs : d.step bytes = .event encoded timestamp size)
    (hr : encoded.render = ⟨text, some fault⟩) :
    (d.withText text).Refuses (.decode fault) bytes := by
  -- the front of the message is written once more
  have hagain := step_withText d text bytes
  rw [hs] at hagain
  exact ⟨next_of_fault hagain hr, fun hne => absurd rfl (hne fault)⟩

/-- **A call for an event that fails** fails again, and then changes nothing. -/
theorem refuses_of_next (h : d.next bytes = (.error error, d')) : d'.Refuses error bytes := by
  cases hs : d.step bytes with
  | stop error' after =>
    simp only [Deserializer.next, hs] at h
    cases h
    exact refuses_of_stop (step_again hs)
  | event encoded timestamp size =>
    cases hr : encoded.render with
    | mk text fault =>
      cases fault with
      | none =>
        rw [next_of_text hs hr] at h
        cases h
      | some fault =>
        rw [next_of_fault hs hr] at h
        cases h
        exact refuses_of_fault hs hr

/-- **A search that fails**, but does not ask for more bytes, is followed by such failures
    behind the records that it used. -/
theorem refuses_of_findFrom {interval : Interval} {test : Bytes → Option Nat} {consumed : Nat}
    (h : (d.findFrom interval test consumed bytes).result = .error error)
    (hincomplete : error ≠ .incomplete) (hnoMatch : error ≠ .noMatch) :
    (d.findFrom interval test consumed bytes).after.Refuses error
      (bytes.drop ((d.findFrom interval test consumed bytes).consumed - consumed)) := by
  -- along the records that are passed over
  fun_induction findFrom d interval test consumed bytes with
  | case1 d consumed bytes after hs =>
    -- the bytes end inside a record
    dsimp only at h
    split at h <;> cases h
    · exact absurd rfl hnoMatch
    · exact absurd rfl hincomplete
  | case2 d consumed bytes error' after hne hs =>
    cases h
    rw [Nat.sub_self, List.drop_zero]
    exact refuses_of_stop (step_again hs)
  | case3 d consumed bytes encoded timestamp size hs hi text fault hr =>
    cases h
    rw [Nat.sub_self, List.drop_zero]
    exact refuses_of_fault hs hr
  | case4 => cases h
  | case5 d consumed bytes encoded timestamp size hs _ _ _ _ ih
  | case6 d consumed bytes encoded timestamp size hs _ ih =>
    have hrest {stop : Nat} (hstop : consumed + size ≤ stop) :
        size + (stop - (consumed + size)) = stop - consumed := by omega
    have hrefuses := ih h
    rw [List.drop_drop, hrest (le_consumed_findFrom ..)] at hrefuses
    exact hrefuses

/-! ### Any operations -/

/-- A call, or closing. -/
inductive Operation where
  | call (call : Call)
  | close

/-- The deserializer after an operation. -/
def Operation.run : Operation → Deserializer → Deserializer
  | call c, d => (c.run d).2
  | close, d => d.close

/-- The deserializer after several operations. -/
def afterAll (d : Deserializer) (operations : List Operation) : Deserializer :=
  operations.foldl (fun d operation => operation.run d) d

/-- Whatever calls are made, with whatever bytes, each fails with this error, uses nothing,
    and leaves the deserializer as it is. -/
def Keeps (error : Error) (d : Deserializer) : Prop :=
  ∀ (calls : List Call) (call : Call),
    call.run (d.after calls) = (⟨.error error, [], d.runningTimestamp?, d.ended⟩, d)

/-- One call, if no bytes at all can be read. -/
theorem run_of_stop (h : ∀ bytes, d.step bytes = .stop error d) (hne : error ≠ .incomplete)
    (call : Call) : call.run d = (⟨.error error, [], d.runningTimestamp?, d.ended⟩, d) := by
  cases call with
  | next bytes =>
    have hnext := (refuses_of_stop (h bytes)).next
    simp only [Call.run, hnext]
    rfl
  | find interval queries bytes =>
    have hfind : d.find interval (Matcher.ofQueries queries) bytes = ⟨.error error, 0, d⟩ :=
      findFrom_stop (h bytes) hne
    simp only [Call.run, hfind]
    rfl

theorem keeps_of_stop (h : ∀ bytes, d.step bytes = .stop error d) (hne : error ≠ .incomplete) :
    d.Keeps error := by
  intro calls call
  have hsame : d.after calls = d :=
    List.foldl_fixed' (fun first => congrArg Prod.snd (run_of_stop h hne first)) calls
  rw [hsame]
  exact run_of_stop h hne call

theorem closed_run (call : Call) (d : Deserializer) : (call.run d).2.closed = d.closed := by
  cases call with
  | next bytes => exact closed_next d bytes
  | find interval queries bytes =>
    exact closed_findFrom interval (Matcher.ofQueries queries).find? 0

theorem map_eq_error_iff {α β : Type} {f : α → β} {result : Result α} :
    result.map f = .error error ↔ result = .error error := by
  cases result <;> simp [Except.map]

theorem ended_next (d : Deserializer) (bytes : Bytes) :
    (d.next bytes).2.ended = true ↔
      d.ended = true ∨ (d.next bytes).1 = .error .endOfStream := by
  obtain ⟨records, haccounts⟩ := d.accounts_next bytes
  rw [haccounts.ended, map_eq_error_iff]

theorem ended_search (d : Deserializer) (interval : Interval) (test : Bytes → Option Nat)
    (bytes : Bytes) : (d.search interval test bytes).after.ended = true ↔
      d.ended = true ∨ (d.search interval test bytes).result = .error .endOfStream := by
  obtain ⟨records, haccounts⟩ := accounts_findFrom d rfl interval test 0 bytes
  unfold search
  rw [haccounts.ended, map_eq_error_iff]

/-- Only a call that says so meets the end. -/
theorem ended_run (call : Call) (d : Deserializer) :
    (call.run d).2.ended = true ↔
      d.ended = true ∨ (call.run d).1.result = .error .endOfStream := by
  obtain ⟨records, haccounts⟩ := accounts_run (rfl : d.width = d.width) call
  rw [haccounts.ended, map_eq_error_iff]

/-! ### Closing -/

/-- Closing what was closed changes nothing. -/
theorem close_close (d : Deserializer) : d.close.close = d.close := rfl

theorem closed_of_close_eq (h : d.close = d) : d.closed = true := by
  rw [← h]
  rfl

/-- What was closed is not changed by any operation. -/
theorem run_of_close_eq (h : d.close = d) (operation : Operation) : operation.run d = d := by
  cases operation with
  | close => exact h
  | call c =>
    show (c.run d).2 = d
    rw [run_of_stop (step_of_closed (closed_of_close_eq h)) (by simp) c]

/-- A deserializer that was closed at some time is as closing left it. -/
theorem close_afterAll {operations : List Operation} (h : .close ∈ operations)
    (d : Deserializer) : (d.afterAll operations).close = d.afterAll operations := by
  refine foldl_of_mem (fun d => d.close = d) ?_ ?_ h d
  · exact close_close
  · intro d operation hclosed
    rw [run_of_close_eq hclosed, hclosed]

/-- What is known of a deserializer, whatever was done with it before. -/
structure Absorbs (d : Deserializer) : Prop where
  /-- A call meets the end exactly when it says so. -/
  met : ∀ call : Call, (call.run d).2.ended = true ↔
    d.ended = true ∨ (call.run d).1.result = .error .endOfStream
  /-- From then on all calls say so, until the deserializer is closed. -/
  ended : ∀ call : Call, (call.run d).1.result = .error .endOfStream →
    (call.run d).2.Keeps .endOfStream
  /-- Whatever happened before it was closed and since then, all calls say that it is closed,
      and closing it again changes nothing. -/
  closed : ∀ operations : List Operation, .close ∈ operations →
    (d.afterAll operations).Keeps .closed ∧
      (d.afterAll operations).close = d.afterAll operations

theorem absorbs (d : Deserializer) : d.Absorbs := by
  refine ⟨fun call => ended_run call d, ?_, ?_⟩
  · intro call hresult
    have hended := (ended_run call d).2 (.inr hresult)
    have hclosed : d.closed = false := by
      by_contra hclosed
      rw [run_of_stop (step_of_closed (by simpa using hclosed)) (by simp) call] at hresult
      cases hresult
    have hclosed : (call.run d).2.closed = false := (closed_run call d).trans hclosed
    exact keeps_of_stop (step_of_ended hclosed hended) (by simp)
  · intro operations hclose
    have hsame := close_afterAll hclose d
    exact ⟨keeps_of_stop (step_of_closed (closed_of_close_eq hsame)) (by simp), hsame⟩

end Deserializer

namespace Reader

variable {r r' : Reader} {error : Error}

/-! ### Windows from which nothing is read -/

/-- Nothing is read from the window, and for more bytes the source is not asked. -/
structure Refuses (error : Error) (r : Reader) : Prop where
  settled : error ≠ .incomplete
  window : r.deserializer.Refuses error r.window.bytes

theorem Refuses.next (h : r.Refuses error) : r.next = (.error error, r) := by
  have hwindow := h.window.next
  have hsettled := h.settled
  fun_cases Reader.next r with
  | case1 _ _ _ hd =>
    rw [hwindow] at hd
    cases hd
  | case2 _ hd | case3 _ hd | case4 _ hd =>
    rw [hwindow] at hd
    cases hd
    exact absurd rfl hsettled
  | case5 _ _ _ hd =>
    rw [hwindow] at hd
    cases hd
    rfl

theorem Refuses.nextUntil (h : r.Refuses error) (p : Event → Bool) :
    r.nextUntil p = (.error error, r) := nextUntil_of_error h.next

theorem Refuses.nextMatch (h : r.Refuses error) (hdecode : ∀ fault, error ≠ .decode fault)
    (interval : Interval) (matcher : Matcher) :
    r.nextMatch interval matcher = (.error error, r) := by
  have hstep := h.window.step hdecode
  have hfind : r.deserializer.find interval matcher r.window.bytes =
      ⟨.error error, 0, r.deserializer⟩ := Deserializer.findFrom_stop hstep h.settled
  have hnoMatch := (Deserializer.step_eq_stop hstep).1
  have hresult : (r.deserializer.find interval matcher r.window.bytes).result = .error error := by
    rw [hfind]
  have hsearched : r.searched interval matcher = r := by
    simp only [searched, hfind]
    rfl
  unfold Reader.nextMatch
  fun_cases Reader.nextPassing r interval matcher.find? with
  | case1 search _ _ _ hs => cases hresult.symm.trans hs
  | case2 search _ _ hs | case3 search _ _ hs | case4 search _ _ hs =>
    exact absurd (Except.error.inj (hresult.symm.trans hs)) h.settled
  | case5 search _ _ hs | case6 search _ _ hs | case7 search _ _ hs =>
    exact absurd (Except.error.inj (hresult.symm.trans hs)) hnoMatch
  | case8 search _ _ _ _ _ hs =>
    cases hresult.symm.trans hs
    exact congrArg (Prod.mk (Except.error error)) hsearched

/-- **A request** is answered with the error, and the reader stays as it is.  Only searches
    may pass over a message that cannot be put together. -/
theorem Refuses.run (h : r.Refuses error) {request : Request}
    (hrequest : request.counting = true ∨ ∀ fault, error ≠ .decode fault) :
    request.run r = (outcome (.error error), r) := by
  by_cases hcounting : request.counting = true
  · rw [run_eq_nextUntil hcounting, h.nextUntil, map_outcome_error]
  · have hdecode := hrequest.resolve_left hcounting
    cases request with
    | search interval queries =>
      simp only [Request.run, readMatch, h.nextMatch hdecode]
      exact congrArg (·, r) (map_outcome_error _ error)
    | _ => exact absurd rfl hcounting

/-! ### Failures -/

section

variable (hincomplete : error ≠ .incomplete) (hio : ∀ reason, error ≠ .io reason)

include hincomplete hio

/-- **A call for an event that fails**, but not for lack of bytes. -/
theorem refuses_of_next (h : r.next = (.error error, r')) : r'.Refuses error := by
  -- along the reads of the source
  fun_induction next r with
  | case1 => cases h
  | case2 r d hd window source hf ih => exact ih h
  | case3 =>
    cases h
    exact absurd rfl hincomplete
  | case4 =>
    cases h
    exact absurd rfl (hio _)
  | case5 r error' d hne hd =>
    cases h
    exact ⟨hincomplete, Deserializer.refuses_of_next hd⟩

theorem refuses_of_nextUntil {p : Event → Bool} (h : r.nextUntil p = (.error error, r')) :
    r'.Refuses error := by
  -- along the events that are passed over
  fun_induction nextUntil p r with
  | case1 => cases h
  | case2 r event r'' hnext hp ih => exact ih h
  | case3 r error' r'' hnext =>
    cases h
    exact refuses_of_next hincomplete hio hnext

theorem refuses_of_nextMatch {interval : Interval} {matcher : Matcher}
    (h : r.nextMatch interval matcher = (.error error, r')) : r'.Refuses error := by
  -- along the reads of the source
  unfold Reader.nextMatch at h
  fun_induction nextPassing r interval matcher.find? with
  | case1 => cases h
  | case2 _ _ _ _ _ _ _ _ ih | case5 _ _ _ _ _ _ _ _ ih => exact ih h
  | case3 | case6 =>
    cases h
    exact absurd rfl hincomplete
  | case4 | case7 =>
    cases h
    exact absurd rfl (hio _)
  | case8 r search window deserializer error' _ hnoMatch hs =>
    cases h
    refine ⟨hincomplete, ?_⟩
    dsimp only [window]
    rw [Window.bytes_consume]
    exact Deserializer.refuses_of_findFrom hs hincomplete hnoMatch

end

/-- An answer tells the error. -/
theorem eq_of_map_outcome {α β : Type} {f : α → β} {result : Result α}
    (h : (outcome result).map f = outcome (.error error)) : result = .error error := by
  cases result with
  | ok value => cases error <;> cases h
  | error error' =>
    rw [map_outcome_error] at h
    unfold outcome at h
    split at h <;> split at h <;> simp_all

/-- **A request that fails**, but not for lack of bytes. -/
theorem refuses_of_run {request : Request} (h : (request.run r).1 = outcome (.error error))
    (hincomplete : error ≠ .incomplete) (hio : ∀ reason, error ≠ .io reason) :
    (request.run r).2.Refuses error := by
  by_cases hcounting : request.counting = true
  · rw [run_eq_nextUntil hcounting] at h ⊢
    exact refuses_of_nextUntil hincomplete hio (Prod.ext (eq_of_map_outcome h) rfl)
  · cases request with
    | search interval queries =>
      exact refuses_of_nextMatch hincomplete hio (Prod.ext (eq_of_map_outcome h) rfl)
    | _ => exact absurd rfl hcounting

/-! ### The end of the stream -/

theorem ended_next (r : Reader) :
    r.next.2.deserializer.ended = true ↔
      r.deserializer.ended = true ∨ r.next.1 = .error .endOfStream := by
  -- along the reads of the source
  fun_induction next r with
  | case1 r event size d hd | case5 r error d hne hd =>
    have hended := r.deserializer.ended_next r.window.bytes
    rw [hd] at hended
    simpa using hended
  | case2 r d hd window source hf ih =>
    obtain ⟨-, rfl⟩ := Deserializer.next_of_incomplete hd
    exact ih
  | case3 r d hd | case4 r d hd =>
    obtain ⟨-, rfl⟩ := Deserializer.next_of_incomplete hd
    simp

theorem ended_nextUntil (p : Event → Bool) (r : Reader) :
    (r.nextUntil p).2.deserializer.ended = true ↔
      r.deserializer.ended = true ∨ (r.nextUntil p).1 = .error .endOfStream := by
  -- along the events that are passed over
  fun_induction nextUntil p r with
  | case1 r event r' hnext hp | case3 r error r' hnext =>
    have hended := r.ended_next
    rw [hnext] at hended
    exact hended
  | case2 r event r' hnext hp ih =>
    have hended := r.ended_next
    rw [hnext] at hended
    rw [ih, hended]
    simp

theorem ended_nextMatch (r : Reader) (interval : Interval) (matcher : Matcher) :
    (r.nextMatch interval matcher).2.deserializer.ended = true ↔
      r.deserializer.ended = true ∨ (r.nextMatch interval matcher).1 = .error .endOfStream := by
  -- along the reads of the source
  unfold Reader.nextMatch
  fun_induction nextPassing r interval matcher.find? with
  | case1 r search window deserializer found hs | case8 r search window deserializer error _ _ hs =>
    have hended := r.deserializer.ended_search interval matcher.find? r.window.bytes
    rw [hs] at hended
    simpa using hended
  | case2 r search window deserializer hs window' source hf ih
  | case5 r search window deserializer hs window' source hf ih =>
    have hended := r.deserializer.ended_search interval matcher.find? r.window.bytes
    rw [hs] at hended
    rw [ih, hended]
    simp
  | case3 r search window deserializer hs | case4 r search window deserializer hs
  | case6 r search window deserializer hs | case7 r search window deserializer hs =>
    have hended := r.deserializer.ended_search interval matcher.find? r.window.bytes
    rw [hs] at hended
    simpa using hended

/-- Only a request that says so meets the end. -/
theorem ended_run (request : Request) (r : Reader) :
    (request.run r).2.deserializer.ended = true ↔
      r.deserializer.ended = true ∨ (request.run r).1 = .done := by
  have hdone {α β : Type} (f : α → β) (result : Result α) :
      (outcome result).map f = .done ↔ result = .error .endOfStream := by
    constructor
    · intro h
      exact eq_of_map_outcome h
    · intro h
      rw [h]
      rfl
  by_cases hcounting : request.counting = true
  · rw [run_eq_nextUntil hcounting, hdone]
    exact r.ended_nextUntil request.accepts
  · cases request with
    | search interval queries =>
      show (r.nextMatch interval (Matcher.ofQueries queries)).2.deserializer.ended = true ↔
        _ ∨ (outcome (r.nextMatch interval (Matcher.ofQueries queries)).1).map _ = .done
      rw [hdone]
      exact r.ended_nextMatch interval (Matcher.ofQueries queries)
    | _ => exact absurd rfl hcounting

/-! ### Answers that do not change -/

/-- Whatever requests of this kind are made, each comes to this answer and leaves the reader
    as it is: its source, which keeps in mind every read, its window with the counts and the
    offset, its deserializer. -/
def Keeps (kind : Request → Prop) (answer : Request.Answer) (r : Reader) : Prop :=
  ∀ (requests : List Request) (request : Request), (∀ x ∈ requests, kind x) → kind request →
    request.run (r.afterCalls (requests.map .read)) = (answer, r)

theorem keeps_of_run {kind : Request → Prop} {answer : Request.Answer}
    (h : ∀ request, kind request → request.run r = (answer, r)) : r.Keeps kind answer := by
  intro requests request hrequests hrequest
  have hsame : r.afterCalls (requests.map .read) = r := by
    induction requests with
    | nil => rfl
    | cons first rest ih =>
      have hfirst := h first (hrequests first (List.mem_cons_self ..))
      show (first.run r).2.afterCalls (rest.map .read) = r
      rw [hfirst]
      exact ih fun x hx => hrequests x (List.mem_cons_of_mem first hx)
  rw [hsame]
  exact h request hrequest

/-- Unless a message cannot be put together, this holds of all requests. -/
theorem Refuses.keeps (h : r.Refuses error) (hdecode : ∀ fault, error ≠ .decode fault) :
    r.Keeps (fun _ => True) (outcome (.error error)) :=
  keeps_of_run fun _ _ => h.run (.inr hdecode)

theorem Refuses.keeps_counting (h : r.Refuses error) :
    r.Keeps (·.counting = true) (outcome (.error error)) :=
  keeps_of_run fun _ hcounting => h.run (.inl hcounting)

/-! ### Closing -/

theorem close_close (r : Reader) : r.close.close = r.close := rfl

theorem refuses_of_close_eq (h : r.close = r) : r.Refuses .closed := by
  have hclosed : r.deserializer.closed = true := by
    rw [← h]
    rfl
  exact ⟨by simp, Deserializer.refuses_of_stop (Deserializer.step_of_closed hclosed _)⟩

/-- What was closed is not changed by any call. -/
theorem run_of_close_eq (h : r.close = r) (call : Call) : call.run r = r := by
  cases call with
  | close => exact h
  | read request =>
    show (request.run r).2 = r
    rw [(refuses_of_close_eq h).run (.inr (by simp))]

/-- A reader that was closed at some time is as closing left it. -/
theorem close_afterCalls {calls : List Call} (h : .close ∈ calls) (r : Reader) :
    (r.afterCalls calls).close = r.afterCalls calls := by
  refine foldl_of_mem (fun r => r.close = r) ?_ ?_ h r
  · exact close_close
  · intro r call hclosed
    rw [run_of_close_eq hclosed, hclosed]

/-! ### The place in the stream -/

theorem Steps.offset_le {refills : List Refill} (h : r.Steps refills r') :
    r.window.streamOffset ≤ r'.window.streamOffset := by
  have huse {r r' : Reader} (huses : r.Uses r') :
      r.window.streamOffset ≤ r'.window.streamOffset := by
    obtain ⟨size, hsize, hwindow, -⟩ := huses.window
    rw [hwindow, Window.streamOffset_consume]
    exact Nat.le_add_right ..
  induction h with
  | use huses => exact huse huses
  | fill huses _ hfill _ ih =>
    rw [(Window.refills_of_fill hfill).offset] at ih
    exact (huse huses).trans ih

theorem offset_close (r : Reader) : r.close.window.streamOffset = r.window.streamOffset := rfl

theorem offset_le_afterCalls (r : Reader) (calls : List Call) :
    r.window.streamOffset ≤ (r.afterCalls calls).window.streamOffset := by
  induction calls generalizing r with
  | nil => exact Nat.le_refl _
  | cons call rest ih =>
    have hcall : r.window.streamOffset ≤ (call.run r).window.streamOffset := by
      cases call with
      | read request => exact (request_steps request r).offset_le
      | close => exact r.offset_close.ge
    exact hcall.trans (ih (call.run r))

/-! ### Terminal states -/

/-- What is known of a reader, whatever was done with it before. -/
structure Absorbs (r : Reader) : Prop where
  /-- A request meets the end exactly when it says so. -/
  met : ∀ request : Request, (request.run r).2.deserializer.ended = true ↔
    r.deserializer.ended = true ∨ (request.run r).1 = .done
  /-- From then on all requests say so, until the reader is closed. -/
  ended : ∀ request : Request, (request.run r).1 = .done →
    (request.run r).2.Keeps (fun _ => True) .done
  /-- A byte that is no tag is reported again and again, until the reader is closed. -/
  corrupted : ∀ (request : Request) (fault : Corruption),
    (request.run r).1 = .failed (.corrupted fault) →
      (request.run r).2.Keeps (fun _ => True) (.failed (.corrupted fault))
  /-- So is a message that cannot be put together, until a search or closing. -/
  undecodable : ∀ (request : Request) (fault : DecodeFault),
    (request.run r).1 = .failed (.decode fault) →
      (request.run r).2.Keeps (·.counting = true) (.failed (.decode fault))
  /-- Whatever happened before it was closed and since then, all requests say that it is
      closed, and closing it again changes nothing. -/
  closed : ∀ calls : List Call, .close ∈ calls →
    (r.afterCalls calls).Keeps (fun _ => True) (.failed .closed) ∧
      (r.afterCalls calls).close = r.afterCalls calls
  /-- Closing keeps the place in the stream. -/
  closing : r.close.window.streamOffset = r.window.streamOffset
  /-- No calls take the reader back. -/
  forward : ∀ calls : List Call,
    r.window.streamOffset ≤ (r.afterCalls calls).window.streamOffset

theorem absorbs (r : Reader) : r.Absorbs := by
  refine ⟨fun request => ended_run request r, ?_, ?_, ?_, ?_, r.offset_close,
    r.offset_le_afterCalls⟩
  · intro request hdone
    have hrefuses : (request.run r).2.Refuses .endOfStream :=
      refuses_of_run hdone (by simp) (by simp)
    exact hrefuses.keeps (by simp)
  · intro request fault hfailed
    have hrefuses : (request.run r).2.Refuses (.corrupted fault) :=
      refuses_of_run hfailed (by simp) (by simp)
    exact hrefuses.keeps (by simp)
  · intro request fault hfailed
    have hrefuses : (request.run r).2.Refuses (.decode fault) :=
      refuses_of_run hfailed (by simp) (by simp)
    exact hrefuses.keeps_counting
  · intro calls hclose
    have hsame := close_afterCalls hclose r
    exact ⟨(refuses_of_close_eq hsame).keeps (by simp), hsame⟩

/-- **Terminal states absorb.**  Of every deserializer and every reader, whatever was done
    with it before: once a call met the end, all calls say so until it is closed, and once
    it was closed, all calls say that.  After a byte that is no tag a reader reports it until
    it is closed, and after a message that cannot be put together until a search.  None of
    these calls changes anything, so they do not read the source, and use no bytes. -/
theorem ends_last (d : Deserializer) (r : Reader) : d.Absorbs ∧ r.Absorbs :=
  ⟨d.absorbs, r.absorbs⟩

end Reader

end LogCodec
