import LogCodec.Proofs.Stream.Framed
import LogCodec.Proofs.Stream.RoundTrip

/-! # An account of the records that were used

    A caller may ask a deserializer for events and for matches in any order, each
    time with other bytes.  Between the calls the deserializer keeps in mind the
    running timestamp and whether the end of the stream was met.  Both are told by
    the records that the calls used, and by nothing else.

    * `Record.Spells`: records, one after another.
    * `Deserializer.Accounts`: what one call does with the records that it uses.
      `accounts_next` and `accounts_find` say that both kinds of calls do so.
    * `Deserializer.refit`: what is left in a deserializer without being read again.
    * `Call`: the calls.  `Deserializer.Accounted` says what is known after any of
      them, and `Deserializer.accounted` proves it. -/

namespace LogCodec

/-! ### Records one after another -/

namespace Record

variable {w : Width}

/-- These bytes are what is written for these records, one after another. -/
inductive Spells : List (Record w) → Bytes → Prop where
  | nil : Spells [] []
  | cons {r : Record w} {records : List (Record w)} {bytes rest : Bytes} :
    r.toBytes = .ok bytes → Spells records rest → Spells (r :: records) (bytes ++ rest)

theorem spells_singleton {r : Record w} {bytes : Bytes} (h : r.toBytes = .ok bytes) :
    Spells [r] bytes := by
  have := Spells.cons h .nil
  rwa [List.append_nil] at this

theorem Spells.append {records records' : List (Record w)} {bytes bytes' : Bytes}
    (h : Spells records bytes) (h' : Spells records' bytes') :
    Spells (records ++ records') (bytes ++ bytes') := by
  induction h with
  | nil => exact h'
  | cons hr _ ih =>
    rw [List.append_assoc]
    exact .cons hr ih

/-- The bytes tell the records. -/
theorem Spells.unique {records records' : List (Record w)} {bytes : Bytes}
    (h : Spells records bytes) (h' : Spells records' bytes) : records = records' := by
  induction h generalizing records' with
  | nil =>
    generalize hnil : ([] : Bytes) = bytes at h'
    cases h' with
    | nil => rfl
    | cons hr _ =>
      -- a record has at least its tag
      obtain ⟨-, rfl⟩ := toBytes_eq_ok_iff.1 hr
      cases hnil
  | @cons r records bytes rest hr _ ih =>
    generalize hbytes : bytes ++ rest = whole at h'
    cases h' with
    | nil =>
      obtain ⟨-, rfl⟩ := toBytes_eq_ok_iff.1 hr
      cases hbytes
    | @cons r' records' bytes' rest' hr' hrest' =>
      -- both records are made out at the front of the same bytes
      have hfront := front_toBytes_append hr rest
      rw [hbytes, front_toBytes_append hr' rest'] at hfront
      injection hfront with hrecord hsize
      obtain ⟨-, rfl⟩ := List.append_inj hbytes hsize.symm
      rw [hrecord, ih hrest']

/-- The running timestamp that these differences take a stream to: their sum, modulo
    `2 ^ 64`, on top of the time before. -/
def reached (start : Int64) (records : List (Record w)) : Int64 :=
  .ofInt (start.toInt + (records.map fun r => r.time.toInt).sum)

end Record

open Record (Spells reached)

/-- The time of the last of these records, after an event at the time `start`. -/
def Width.timeAfter (w : Width) (start : Int64) (records : List (Record w)) : Int64 :=
  records.foldl (fun running r => w.eventTime running r.time) start

theorem Width.timeAfter_fourByte (start : Int64) (records : List (Record .fourByte)) :
    Width.fourByte.timeAfter start records = reached start records := by
  rw [timeAfter, reached]
  induction records generalizing start with
  | nil => rw [List.foldl_nil, List.map_nil, List.sum_nil, Int.add_zero, Int64.ofInt_toInt]
  | cons r rest ih =>
    rw [List.foldl_cons, ih, List.map_cons, List.sum_cons, ← Int.add_assoc, Int64.ofInt_add,
      Int64.ofInt_add, Int64.ofInt_add, Int64.ofInt_toInt, Int64.ofInt_toInt, Int64.ofInt_toInt]
    rfl

/-- Only a four-byte stream has a running timestamp. -/
theorem Width.running?_timeAfter (w : Width) (start : Int64) (records : List (Record w)) :
    w.running? (w.timeAfter start records) = w.running? (reached start records) := by
  cases w with
  | fourByte => rw [timeAfter_fourByte]
  | eightByte => rfl

/-- In an eight-byte stream a record has its own time, whatever was before. -/
theorem Width.eventTime_timeAfter (w : Width) (start stored : Int64) (records : List (Record w)) :
    w.eventTime (w.timeAfter start records) stored =
      w.eventTime (reached start records) stored := by
  cases w with
  | fourByte => rw [timeAfter_fourByte]
  | eightByte => rfl

namespace Deserializer

/-! ### One call -/

/-- A call used these bytes, which are these records, and came to this result.  The
    running timestamp moved by the records, and the end of the stream was met if the
    result says so.  An event is that of the last record. -/
structure Accounts {w : Width} (d : Deserializer) (used : Bytes) (records : List (Record w))
    (result : Result Event) (d' : Deserializer) : Prop where
  width : d'.width = w
  spells : Spells records used
  running : d'.running = w.timeAfter d.running records
  ended : d'.ended = true ↔ d.ended = true ∨ result = .error .endOfStream
  event : ∀ event, result = .ok event → ∃ earlier own, records = earlier ++ [own] ∧
    own.encoded.render = ⟨event.message, none⟩ ∧
    event.timestamp = w.eventTime (w.timeAfter d.running earlier) own.time

section

variable {w : Width} {d d' : Deserializer} {bytes : Bytes}

/-- A call that fails where it started. -/
theorem accounts_error {error : Error} (hwidth : d'.width = w) (hrunning : d'.running = d.running)
    (hended : d'.ended = true ↔ d.ended = true ∨ error = .endOfStream) :
    Accounts (w := w) d [] [] (.error error) d' where
  width := hwidth
  spells := .nil
  running := hrunning
  ended := by rw [hended, Except.error.injEq]
  event := fun _ h => nomatch h

/-- What a step that is no event does to a deserializer. -/
theorem of_step_stop {error : Error} (h : d.step bytes = .stop error d') :
    d'.width = d.width ∧ d'.running = d.running ∧
      (d'.ended = true ↔ d.ended = true ∨ error = .endOfStream) := by
  unfold step at h
  split at h
  · cases h
    simp
  · split at h
    · rename_i hended
      cases h
      simp [hended]
    · split at h <;> cases h <;> simp

/-- The record that an event was made out in. -/
theorem record_of_step_event {encoded : Encoded d.width} {timestamp : Int64} {size : Nat}
    (h : d.step bytes = .event encoded timestamp size) :
    ∃ r : Record d.width, r.encoded = encoded ∧ timestamp = d.width.eventTime d.running r.time ∧
      ∃ record rest, r.toBytes = .ok record ∧ bytes = record ++ rest ∧ size = record.length := by
  unfold step at h
  split at h
  · cases h
  split at h
  · cases h
  split at h
  · rename_i r _ hfront
    cases h
    exact ⟨r, rfl, rfl, Record.front_eq_event_iff.1 hfront⟩
  all_goals cases h

/-- A call that finds the event of the first record. -/
theorem accounts_found {r : Record w} {record message : Bytes} {timestamp : Int64}
    (hr : r.toBytes = .ok record) (hrender : r.encoded.render = ⟨message, none⟩)
    (htime : timestamp = w.eventTime d.running r.time) (hwidth : d.width = w) :
    Accounts d record [r] (.ok ⟨message, timestamp⟩) ((d.withText message).commit timestamp) where
  width := hwidth
  spells := Record.spells_singleton hr
  running := htime
  ended := by simp [withText, commit]
  event := by
    rintro event h
    cases h
    exact ⟨[], r, rfl, hrender, htime⟩

/-- A call that passes over the first record. -/
theorem Accounts.cons {d₁ : Deserializer} {r : Record w} {record used : Bytes}
    {records : List (Record w)} {result : Result Event} (h : Accounts d₁ used records result d')
    (hr : r.toBytes = .ok record) (hrunning : d₁.running = w.eventTime d.running r.time)
    (hended : d₁.ended = d.ended) :
    Accounts d (record ++ used) (r :: records) result d' where
  width := h.width
  spells := .cons hr h.spells
  running := by rw [h.running, hrunning, Width.timeAfter, Width.timeAfter, List.foldl_cons]
  ended := by rw [h.ended, hended]
  event := by
    intro event hresult
    obtain ⟨earlier, own, rfl, hrender, htime⟩ := h.event event hresult
    refine ⟨r :: earlier, own, rfl, hrender, ?_⟩
    rw [htime, hrunning, Width.timeAfter, Width.timeAfter, List.foldl_cons]

end

/-- How many bytes an answer to `next` used. -/
def used (result : Result (Event × Nat)) : Nat :=
  match result with
  | .ok (_, size) => size
  | .error _ => 0

/-- **One event** is that of the record that was used. -/
theorem accounts_next (d : Deserializer) (bytes : Bytes) :
    ∃ records : List (Record d.width), Accounts d (bytes.take (used (d.next bytes).1)) records
      ((d.next bytes).1.map Prod.fst) (d.next bytes).2 := by
  unfold next
  split
  · -- no event
    rename_i hs
    obtain ⟨hwidth, hrunning, hended⟩ := of_step_stop hs
    exact ⟨[], accounts_error hwidth hrunning hended⟩
  · rename_i hs
    obtain ⟨r, rfl, htime, record, rest, hr, rfl, rfl⟩ := record_of_step_event hs
    split
    · -- the message cannot be put together, and nothing is used
      exact ⟨[], accounts_error rfl rfl (by simp [withText])⟩
    · rename_i hrender
      refine ⟨[r], ?_⟩
      dsimp only [used]
      rw [List.take_left]
      exact accounts_found hr hrender htime rfl

/-- What a search used behind the first record. -/
theorem take_used {record rest : Bytes} {consumed stop : Nat}
    (h : consumed + record.length ≤ stop) :
    (record ++ rest).take (stop - consumed) =
      record ++ rest.take (stop - (consumed + record.length)) := by
  have hsub : stop - consumed - record.length = stop - (consumed + record.length) := Nat.sub_sub ..
  rw [List.take_append, List.take_of_length_le (by omega), hsub]

theorem accounts_findFrom {w : Width} (d : Deserializer) (hw : d.width = w) (interval : Interval)
    (test : Bytes → Option Nat) (consumed : Nat) (bytes : Bytes) :
    ∃ records : List (Record w),
      Accounts d (bytes.take ((d.findFrom interval test consumed bytes).consumed - consumed))
        records ((d.findFrom interval test consumed bytes).result.map Match.event)
        (d.findFrom interval test consumed bytes).after := by
  -- along the records that are passed over
  fun_induction findFrom d interval test consumed bytes with
  | case1 d consumed bytes after hs =>
    obtain ⟨hwidth, hrunning, hended⟩ := of_step_stop hs
    rw [Nat.sub_self, List.take_zero]
    refine ⟨[], accounts_error (hwidth.trans hw) hrunning ?_⟩
    -- neither way of asking for more bytes is the end of the stream
    rw [hended]
    split <;> simp
  | case2 d consumed bytes error after _ hs =>
    obtain ⟨hwidth, hrunning, hended⟩ := of_step_stop hs
    rw [Nat.sub_self, List.take_zero]
    exact ⟨[], accounts_error (hwidth.trans hw) hrunning hended⟩
  | case3 d consumed bytes encoded timestamp size hs hi text fault hr =>
    rw [Nat.sub_self, List.take_zero]
    exact ⟨[], accounts_error hw rfl (by simp [withText])⟩
  | case4 d consumed bytes encoded timestamp size hs hi text hrender query hq =>
    subst hw
    obtain ⟨r, rfl, htime, record, rest, hr, rfl, rfl⟩ := record_of_step_event hs
    refine ⟨[r], ?_⟩
    rw [Nat.add_sub_cancel_left, List.take_left]
    exact accounts_found hr hrender htime rfl
  | case5 d consumed bytes encoded timestamp size hs hi text hrender hq ih
  | case6 d consumed bytes encoded timestamp size hs hi ih =>
    subst hw
    obtain ⟨r, rfl, htime, record, rest, hr, rfl, rfl⟩ := record_of_step_event hs
    rw [List.drop_left] at ih ⊢
    obtain ⟨records, haccounts⟩ := ih rfl
    rw [take_used (le_consumed_findFrom ..)]
    exact ⟨r :: records, haccounts.cons hr htime rfl⟩

/-- **A search** uses the records that it passes over, and the one that it finds. -/
theorem accounts_find (d : Deserializer) (interval : Interval) (matcher : Matcher)
    (bytes : Bytes) :
    ∃ records : List (Record d.width),
      Accounts d (bytes.take (d.find interval matcher bytes).consumed) records
        ((d.find interval matcher bytes).result.map Match.event)
        (d.find interval matcher bytes).after :=
  accounts_findFrom d rfl interval matcher.find? 0 bytes

/-! ### What is not read again -/

/-- What a deserializer holds that no later answer depends on, but that the answer is
    left in for its caller. -/
structure Residue where
  info : TimestampInfo
  /-- The running timestamp of an eight-byte stream. -/
  running : Int64
  text : Bytes
  timestamp : Int64

/-- The deserializer with another residue. -/
def refit (d : Deserializer) (x : Residue) : Deserializer :=
  { d with
    info := x.info
    running :=
      match d.width with
      | .fourByte => d.running
      | .eightByte => x.running
    text := x.text
    timestamp := x.timestamp }

section

variable (d : Deserializer) (x : Residue)

theorem refit_refit (y : Residue) : (d.refit x).refit y = d.refit y := by
  obtain ⟨width, info, running, text, timestamp, ended, closed⟩ := d
  cases width <;> rfl

theorem refit_self : d.refit ⟨d.info, d.running, d.text, d.timestamp⟩ = d := by
  obtain ⟨width, info, running, text, timestamp, ended, closed⟩ := d
  cases width <;> rfl

theorem withText_eq_refit (text : Bytes) :
    d.withText text = d.refit ⟨d.info, d.running, text, d.timestamp⟩ := by
  obtain ⟨width, info, running, text, timestamp, ended, closed⟩ := d
  cases width <;> rfl

theorem runningTimestamp?_refit : (d.refit x).runningTimestamp? = d.runningTimestamp? := by
  obtain ⟨width, info, running, text, timestamp, ended, closed⟩ := d
  cases width <;> rfl

theorem eventTime_refit (stored : Int64) : (d.refit x).eventTime stored = d.eventTime stored := by
  obtain ⟨width, info, running, text, timestamp, ended, closed⟩ := d
  cases width <;> rfl

theorem commit_refit (timestamp : Int64) :
    (d.refit x).commit timestamp =
      (d.commit timestamp).refit ⟨x.info, timestamp, x.text, timestamp⟩ := by
  obtain ⟨width, info, running, text, timestamp, ended, closed⟩ := d
  cases width <;> rfl

theorem withText_refit (text : Bytes) :
    (d.refit x).withText text = (d.withText text).refit { x with text := text } := rfl

end

section

variable {d : Deserializer} {bytes : Bytes} (x : Residue)

theorem step_refit_event {encoded : Encoded d.width} {timestamp : Int64} {size : Nat}
    (h : d.step bytes = .event encoded timestamp size) :
    (d.refit x).step bytes = .event encoded timestamp size := by
  unfold step at h ⊢
  split at h
  · cases h
  split at h
  · cases h
  rename_i hclosed hended
  refine (if_neg hclosed).trans ((if_neg hended).trans ?_)
  split at h
  · rename_i r _ hfront
    cases h
    rw [show Record.front (d.refit x).width bytes = .event r size from hfront]
    dsimp only
    rw [eventTime_refit]
  all_goals cases h

theorem step_refit_stop {error : Error} {after : Deserializer}
    (h : d.step bytes = .stop error after) :
    (d.refit x).step bytes = .stop error (after.refit x) := by
  unfold step at h ⊢
  by_cases hclosed : d.closed = true
  · rw [if_pos hclosed] at h
    cases h
    exact if_pos hclosed
  rw [if_neg hclosed] at h
  refine (if_neg hclosed).trans ?_
  by_cases hended : d.ended = true
  · rw [if_pos hended] at h
    cases h
    exact if_pos hended
  rw [if_neg hended] at h
  refine (if_neg hended).trans ?_
  have hfront : Record.front (d.refit x).width bytes = Record.front d.width bytes := rfl
  rw [hfront]
  split at h <;> cases h <;> rfl

end

section

variable {d : Deserializer} {bytes : Bytes} {encoded : Encoded d.width} {timestamp : Int64}
  {size : Nat} (h : d.step bytes = .event encoded timestamp size)

include h

theorem next_of_fault {text : Bytes} {fault : DecodeFault}
    (hr : encoded.render = ⟨text, some fault⟩) :
    d.next bytes = (.error (.decode fault), d.withText text) := by
  simp only [next, h, hr]

theorem next_of_text {text : Bytes} (hr : encoded.render = ⟨text, none⟩) :
    d.next bytes = (.ok (⟨text, timestamp⟩, size), (d.withText text).commit timestamp) := by
  simp only [next, h, hr]

end

section

variable (d : Deserializer) (x : Residue) (bytes : Bytes)

/-- The answer does not depend on the residue. -/
theorem next_refit :
    ∃ y, (d.refit x).next bytes = ((d.next bytes).1, (d.next bytes).2.refit y) := by
  cases hs : d.step bytes with
  | stop error after =>
    refine ⟨x, ?_⟩
    simp only [next, hs, step_refit_stop x hs]
  | event encoded timestamp size =>
    have hs' := step_refit_event x hs
    cases hr : encoded.render with
    | mk text fault =>
      cases fault with
      | some fault =>
        rw [next_of_fault hs hr, next_of_fault hs' hr]
        exact ⟨{ x with text := text }, rfl⟩
      | none =>
        rw [next_of_text hs hr, next_of_text hs' hr, withText_refit, commit_refit]
        exact ⟨_, rfl⟩

theorem findFrom_refit (interval : Interval) (test : Bytes → Option Nat) (consumed : Nat) :
    ∃ y, (d.refit x).findFrom interval test consumed bytes =
      ⟨(d.findFrom interval test consumed bytes).result,
        (d.findFrom interval test consumed bytes).consumed,
        (d.findFrom interval test consumed bytes).after.refit y⟩ := by
  fun_induction findFrom d interval test consumed bytes generalizing x with
  | case1 d consumed bytes after hs =>
    obtain rfl := after_of_step_incomplete hs
    exact ⟨x, findFrom_incomplete (step_refit_stop x hs)⟩
  | case2 d consumed bytes error after hne hs =>
    exact ⟨x, findFrom_stop (step_refit_stop x hs) hne⟩
  | case3 d consumed bytes encoded timestamp size hs hi text fault hr =>
    exact ⟨{ x with text := text }, findFrom_fault (step_refit_event x hs) hi hr⟩
  | case4 d consumed bytes encoded timestamp size hs hi text hr query hq =>
    refine ⟨⟨x.info, timestamp, text, timestamp⟩, ?_⟩
    rw [findFrom_found (step_refit_event x hs) hi hr hq, withText_refit, commit_refit]
  | case5 d consumed bytes encoded timestamp size hs hi text hr hq ih =>
    rw [findFrom_skip (step_refit_event x hs) hi hr hq, withText_refit, commit_refit]
    exact ih _
  | case6 d consumed bytes encoded timestamp size hs hi ih =>
    rw [findFrom_outside (step_refit_event x hs) (by simpa using hi), commit_refit]
    exact ih _

end

/-! ### Any calls -/

/-- A call for an event or for a match, with the bytes that are handed in. -/
inductive Call where
  | next (bytes : Bytes)
  | find (interval : Interval) (queries : List Query) (bytes : Bytes)

namespace Call

/-- What is seen of a call from outside: the event, for a match with the index of the
    query, the bytes that were used, the running timestamp, and whether the end of the
    stream was met. -/
structure Reply where
  result : Result (Event × Option Nat)
  used : Bytes
  running : Option Int64
  ended : Bool

/-- Makes a call. -/
def run (call : Call) (d : Deserializer) : Reply × Deserializer :=
  match call with
  | next bytes =>
    let (result, d) := d.next bytes
    (⟨result.map fun (event, _) => (event, none), bytes.take (used result),
      d.runningTimestamp?, d.ended⟩, d)
  | find interval queries bytes =>
    let s := d.find interval (Matcher.ofQueries queries) bytes
    (⟨s.result.map fun found => (found.event, some found.query), bytes.take s.consumed,
      s.after.runningTimestamp?, s.after.ended⟩, s.after)

/-- A call for an event that failed, but not because the stream has ended. -/
def isFailure : Call × Reply → Bool
  | (next _, ⟨.error .incomplete, _, _, _⟩) => true
  | (next _, ⟨.error (.corrupted _), _, _, _⟩) => true
  | (next _, ⟨.error (.decode _), _, _, _⟩) => true
  | _ => false

end Call

/-- Makes calls one after another. -/
def log (d : Deserializer) : List Call → List (Call × Call.Reply)
  | [] => []
  | call :: rest => (call, (call.run d).1) :: (call.run d).2.log rest

/-- The deserializer after some calls. -/
def after (d : Deserializer) (calls : List Call) : Deserializer :=
  calls.foldl (fun d call => (call.run d).2) d

/-- All bytes that some calls used. -/
def taken (d : Deserializer) (calls : List Call) : Bytes :=
  (d.log calls).flatMap fun (_, reply) => reply.used

theorem taken_cons (d : Deserializer) (call : Call) (rest : List Call) :
    d.taken (call :: rest) = (call.run d).1.used ++ (call.run d).2.taken rest := rfl

theorem after_cons (d : Deserializer) (call : Call) (rest : List Call) :
    d.after (call :: rest) = (call.run d).2.after rest := rfl

theorem taken_append (d : Deserializer) (calls : List Call) (call : Call) :
    d.taken (calls ++ [call]) = d.taken calls ++ (call.run (d.after calls)).1.used := by
  induction calls generalizing d with
  | nil => exact List.append_nil _
  | cons first rest ih =>
    rw [List.cons_append, taken_cons, taken_cons, after_cons, ih, List.append_assoc]

/-- One call, of whichever kind. -/
theorem accounts_run {w : Width} {d : Deserializer} (hw : d.width = w) (call : Call) :
    ∃ records : List (Record w), Accounts d (call.run d).1.used records
      ((call.run d).1.result.map Prod.fst) (call.run d).2 := by
  subst hw
  cases call with
  | next bytes =>
    obtain ⟨records, h⟩ := accounts_next d bytes
    refine ⟨records, ?_⟩
    have hresult : ((d.next bytes).1.map fun (event, _) => (event, (none : Option Nat))).map
        Prod.fst = (d.next bytes).1.map Prod.fst := by
      cases (d.next bytes).1 <;> rfl
    rw [← hresult] at h
    exact h
  | find interval queries bytes =>
    obtain ⟨records, h⟩ := accounts_find d interval (Matcher.ofQueries queries) bytes
    refine ⟨records, ?_⟩
    have hresult : ((d.find interval (Matcher.ofQueries queries) bytes).result.map
          fun found => (found.event, some found.query)).map Prod.fst =
        (d.find interval (Matcher.ofQueries queries) bytes).result.map Match.event := by
      cases (d.find interval (Matcher.ofQueries queries) bytes).result <;> rfl
    rw [← hresult] at h
    exact h

/-- All calls together. -/
theorem spells_taken {w : Width} {d : Deserializer} (hw : d.width = w) (calls : List Call) :
    ∃ records : List (Record w), Spells records (d.taken calls) ∧ (d.after calls).width = w ∧
      (d.after calls).running = w.timeAfter d.running records := by
  induction calls generalizing d with
  | nil => exact ⟨[], .nil, hw, rfl⟩
  | cons call rest ih =>
    obtain ⟨first, hfirst⟩ := accounts_run hw call
    obtain ⟨others, hspells, hwidth, hrunning⟩ := ih hfirst.width
    refine ⟨first ++ others, hfirst.spells.append hspells, hwidth, ?_⟩
    rw [after_cons, hrunning, hfirst.running, Width.timeAfter, Width.timeAfter, Width.timeAfter,
      List.foldl_append]

/-- A call for an event that fails changes only the text. -/
theorem exists_withText_of_isFailure {d : Deserializer} {call : Call}
    (h : Call.isFailure (call, (call.run d).1) = true) :
    ∃ text, (call.run d).2 = d.withText text := by
  cases call with
  | find => simp [Call.isFailure] at h
  | next bytes =>
    unfold Call.run next at h ⊢
    dsimp only at h ⊢
    split at h
    · rename_i error after hs
      -- only at the end of the stream something else changes
      rcases (step_eq_stop hs).2 with rfl | ⟨rfl, -⟩
      · exact ⟨after.text, rfl⟩
      · simp [Call.isFailure, Except.map] at h
    · split at h
      · exact ⟨_, rfl⟩
      · simp [Call.isFailure, Except.map] at h

theorem run_refit (call : Call) (d : Deserializer) (x : Residue) :
    ∃ y, call.run (d.refit x) = ((call.run d).1, (call.run d).2.refit y) := by
  cases call with
  | next bytes =>
    obtain ⟨y, hy⟩ := next_refit d x bytes
    refine ⟨y, ?_⟩
    simp only [Call.run, hy, runningTimestamp?_refit]
    rfl
  | find interval queries bytes =>
    obtain ⟨y, hy⟩ := findFrom_refit d x bytes interval (Matcher.ofQueries queries).find? 0
    refine ⟨y, ?_⟩
    simp only [Call.run, find, search, hy, runningTimestamp?_refit]
    rfl

/-- Without the calls that failed, the others are answered as before. -/
theorem log_filter (d : Deserializer) (x : Residue) (calls : List Call) :
    (d.refit x).log (((d.log calls).filter (!Call.isFailure ·)).map Prod.fst) =
      (d.log calls).filter (!Call.isFailure ·) := by
  induction calls generalizing d x with
  | nil => rfl
  | cons call rest ih =>
    rw [log]
    by_cases hfailure : Call.isFailure (call, (call.run d).1) = true
    · -- the call that is left out changed nothing that is read again
      obtain ⟨text, hafter⟩ := exists_withText_of_isFailure hfailure
      rw [withText_eq_refit] at hafter
      have hrest := ih (call.run d).2 x
      rw [hafter, refit_refit] at hrest
      rw [List.filter_cons_of_neg (by simp [hfailure]), hafter]
      exact hrest
    · obtain ⟨y, hy⟩ := run_refit call d x
      rw [List.filter_cons_of_pos (by simpa using hfailure), List.map_cons, log, hy, ih]

/-! ### What is known after any calls -/

/-- What is known of a deserializer after some calls, and of a further call. -/
structure Accounted (d : Deserializer) (calls : List Call) : Prop where
  /-- A new deserializer starts at the reference timestamp of its stream. -/
  new : ∀ p : Preamble, d = .ofPreamble p → d.running = p.reference
  /-- The bytes that were used are records, and the running timestamp is the sum of their
      differences on top of the first one. -/
  running : ∃ records : List (Record d.width), Spells records (d.taken calls) ∧
    (∀ records', Spells records' (d.taken calls) → records' = records) ∧
    (d.after calls).runningTimestamp? = d.width.running? (reached d.running records)
  /-- An event has the time that is reached at its own record, the last one used. -/
  event : ∀ call event query, (call.run (d.after calls)).1.result = .ok (event, query) →
    ∃ (earlier : List (Record d.width)) (own : Record d.width),
      Spells (earlier ++ [own]) (d.taken (calls ++ [call])) ∧
      own.encoded.render = ⟨event.message, none⟩ ∧
      event.timestamp = d.width.eventTime (reached d.running earlier) own.time
  /-- A call for an event that fails changes neither the running timestamp nor whether
      the end was met. -/
  failure : ∀ call, Call.isFailure (call, (call.run (d.after calls)).1) = true →
    (d.after (calls ++ [call])).running = (d.after calls).running ∧
    (d.after (calls ++ [call])).ended = (d.after calls).ended
  /-- So the calls of this kind can be left out. -/
  omitted : d.log (((d.log calls).filter (!Call.isFailure ·)).map Prod.fst) =
    (d.log calls).filter (!Call.isFailure ·)
  /-- A search that fails changes the running timestamp by the records that it used, and
      meets the end only when it says so. -/
  search : ∀ interval queries bytes error,
    ((Call.find interval queries bytes).run (d.after calls)).1.result = .error error →
    ∃ skipped : List (Record d.width),
      Spells skipped ((Call.find interval queries bytes).run (d.after calls)).1.used ∧
      (d.after (calls ++ [.find interval queries bytes])).runningTimestamp? =
        d.width.running? (reached (d.after calls).running skipped) ∧
      ((d.after (calls ++ [.find interval queries bytes])).ended = true ↔
        (d.after calls).ended = true ∨ error = .endOfStream)

theorem after_append (d : Deserializer) (calls : List Call) (call : Call) :
    d.after (calls ++ [call]) = (call.run (d.after calls)).2 := by
  rw [after, List.foldl_append]
  rfl

theorem runningTimestamp?_of_width {d : Deserializer} {w : Width} (h : d.width = w) :
    d.runningTimestamp? = w.running? d.running := by
  subst h
  rfl

/-- **The records that were used tell the state.**  A new deserializer starts at the
    reference timestamp of its stream.  After any calls its running timestamp is the sum
    of the differences in exactly the records whose bytes were used, modulo `2 ^ 64`, on
    top of that.  Calls for an event that fail leave no trace, and searches that fail
    only that of the records that they used. -/
theorem accounted (d : Deserializer) (calls : List Call) : Accounted d calls := by
  obtain ⟨records, hspells, hwidth, hrunning⟩ := spells_taken (rfl : d.width = d.width) calls
  refine ⟨fun p h => h ▸ rfl, ?_, ?_, ?_, ?_, ?_⟩
  · refine ⟨records, hspells, fun _ h => h.unique hspells, ?_⟩
    rw [runningTimestamp?_of_width hwidth, hrunning, Width.running?_timeAfter]
  · intro call event query hresult
    obtain ⟨used, haccounts⟩ := accounts_run hwidth call
    obtain ⟨earlier, own, rfl, hrender, htime⟩ :=
      haccounts.event event (by rw [hresult]; rfl)
    refine ⟨records ++ earlier, own, ?_, hrender, ?_⟩
    · rw [taken_append, List.append_assoc]
      exact hspells.append haccounts.spells
    · -- the records of the calls before come first
      rw [htime, hrunning, ← Width.eventTime_timeAfter, Width.timeAfter, Width.timeAfter,
        Width.timeAfter, List.foldl_append]
  · intro call hfailure
    obtain ⟨text, hafter⟩ := exists_withText_of_isFailure hfailure
    rw [after_append, hafter]
    exact ⟨rfl, rfl⟩
  · have := log_filter d ⟨d.info, d.running, d.text, d.timestamp⟩ calls
    rwa [refit_self] at this
  · intro interval queries bytes error hresult
    obtain ⟨skipped, haccounts⟩ := accounts_run hwidth (.find interval queries bytes)
    rw [after_append]
    refine ⟨skipped, haccounts.spells, ?_, ?_⟩
    · rw [runningTimestamp?_of_width haccounts.width, haccounts.running,
        Width.running?_timeAfter]
    · rw [haccounts.ended, hresult]
      simp [Except.map]

end Deserializer

end LogCodec
