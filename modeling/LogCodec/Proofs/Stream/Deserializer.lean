import LogCodec.Proofs.Stream.Record
import LogCodec.Stream.Deserializer

/-! # Deserializers and more bytes

    A deserializer that did not ask for more bytes would have done the same
    with more of them.  One that asked for more is left so that it can go on
    from where the bytes that it used end.

    - `next_append`, `next_of_incomplete`: for one event.
    - `find_append_of_settled`, `find_append_of_incomplete`: for a search. -/

namespace LogCodec

/-- When an event happened whose record has this time, after an event at the time
    `running`. -/
def Width.eventTime (w : Width) (running stored : Int64) : Int64 :=
  match w with
  | .fourByte => running + stored
  | .eightByte => stored

namespace Deserializer

/-! ### One record -/

section

variable {d after : Deserializer} {bytes : Bytes}

/-- What a step may stop with.  Only the end of the stream is kept in mind. -/
theorem step_eq_stop {error : Error} (h : d.step bytes = .stop error after) :
    error ≠ .noMatch ∧ (after = d ∨ error = .endOfStream ∧ after = { d with ended := true }) := by
  unfold step at h
  split at h
  · cases h
    exact ⟨by simp, .inl rfl⟩
  split at h
  · cases h
    exact ⟨by simp, .inl rfl⟩
  split at h <;> cases h
  · exact ⟨by simp, .inr ⟨rfl, rfl⟩⟩
  · exact ⟨by simp, .inl rfl⟩
  · exact ⟨by simp, .inl rfl⟩

theorem after_of_step_incomplete (h : d.step bytes = .stop .incomplete after) : after = d := by
  rcases (step_eq_stop h).2 with hafter | ⟨herror, -⟩
  · exact hafter
  · cases herror

theorem step_of_incomplete (h : d.step bytes = .stop .incomplete after) :
    d.step bytes = .stop .incomplete d := by
  rw [h, after_of_step_incomplete h]

/-- What is at the front of some bytes stays there when more bytes follow. -/
theorem step_append (h : d.step bytes ≠ .stop .incomplete d) (more : Bytes) :
    d.step (bytes ++ more) = d.step bytes := by
  -- a closed or ended deserializer does not look at the bytes at all
  by_cases hclosed : d.closed
  · simp [step, hclosed]
  by_cases hended : d.ended
  · simp [step, hended]
  have hfront : Record.front d.width bytes ≠ .incomplete := by
    intro hf
    apply h
    simp [step, hclosed, hended, hf]
  simp only [step, Record.front_append hfront more]

end

theorem step_append_of_event {d : Deserializer} {bytes : Bytes} {encoded : Encoded d.width}
    {timestamp : Int64} {size : Nat} (h : d.step bytes = .event encoded timestamp size)
    (more : Bytes) : d.step (bytes ++ more) = .event encoded timestamp size := by
  have hne : d.step bytes ≠ .stop .incomplete d := by
    rw [h]
    intro hstop
    cases hstop
  rw [step_append hne, h]

/-! ### One event -/

section

variable {d : Deserializer} {bytes : Bytes}

theorem next_of_step_incomplete (h : d.step bytes = .stop .incomplete d) :
    d.next bytes = (.error .incomplete, d) := by
  rw [next, h]

/-- Asking for more bytes changes nothing. -/
theorem next_of_incomplete {after : Deserializer} (h : d.next bytes = (.error .incomplete, after)) :
    d.step bytes = .stop .incomplete d ∧ after = d := by
  unfold next at h
  split at h
  · rename_i hs
    cases h
    exact ⟨step_of_incomplete hs, after_of_step_incomplete hs⟩
  · split at h <;> cases h

/-- An event that was read is read when more bytes follow, and so is an error
    other than too few bytes. -/
theorem next_append (h : (d.next bytes).1 ≠ .error .incomplete) (more : Bytes) :
    d.next (bytes ++ more) = d.next bytes := by
  have hstep : d.step bytes ≠ .stop .incomplete d := by
    intro hs
    exact h (by rw [next_of_step_incomplete hs])
  simp only [next, step_append hstep more]

end

/-! ### Records that were written -/

/-- The deserializer still reads. -/
structure Live (d : Deserializer) : Prop where
  closed : d.closed = false
  ended : d.ended = false

/-- A new deserializer still reads. -/
theorem live_of_ofBytes {d : Deserializer} {bytes : Bytes} {size : Nat}
    (h : ofBytes bytes = .ok (d, size)) : d.Live := by
  obtain ⟨⟨p, size'⟩, -, hd⟩ := Result.map_eq_ok_iff.1 h
  cases hd
  exact ⟨rfl, rfl⟩

section

variable {d : Deserializer} (hlive : d.Live)

include hlive

/-- A written record is at the front of the bytes, whatever follows it. -/
theorem step_toBytes_append {r : Record d.width} {bytes : Bytes} (h : r.toBytes = .ok bytes)
    (rest : Bytes) :
    d.step (bytes ++ rest) = .event r.encoded (d.eventTime r.time) bytes.length := by
  simp only [step, hlive.closed, hlive.ended, Record.front_toBytes_append h rest,
    Bool.false_eq_true, if_false]

/-- A written record is read, whatever follows it. -/
theorem next_toBytes_append {w : Width} {r : Record w} {bytes message : Bytes} (hw : d.width = w)
    (h : r.toBytes = .ok bytes) (hr : r.encoded.render = ⟨message, none⟩) (rest : Bytes) :
    d.next (bytes ++ rest) =
      (.ok (⟨message, w.eventTime d.running r.time⟩, bytes.length),
        (d.withText message).commit (w.eventTime d.running r.time)) := by
  subst hw
  have htime : d.eventTime r.time = d.width.eventTime d.running r.time := rfl
  rw [next, step_toBytes_append hlive h rest, htime]
  simp only [hr]

theorem step_endTag (rest : Bytes) :
    d.step (Record.endTag :: rest) = .stop .endOfStream { d with ended := true } := by
  have hfront : Record.front d.width (Record.endTag :: rest) = .finish := rfl
  simp only [step, hlive.closed, hlive.ended, hfront, Bool.false_eq_true, if_false]

/-- The end of the stream is met at its tag. -/
theorem next_endTag (rest : Bytes) :
    d.next (Record.endTag :: rest) = (.error .endOfStream, { d with ended := true }) := by
  rw [next, step_endTag hlive rest]

/-- Where the bytes end, more are needed. -/
theorem next_nil : d.next [] = (.error .incomplete, d) := by
  have hfront : Record.front d.width [] = .incomplete := rfl
  refine next_of_step_incomplete ?_
  simp only [step, hlive.closed, hlive.ended, hfront, Bool.false_eq_true, if_false]

/-- A part of a record is incomplete. -/
theorem step_of_cut {r : Record d.width} {bytes more : Bytes} (h : r.toBytes = .ok (bytes ++ more))
    (hmore : more ≠ []) : d.step bytes = .stop .incomplete d := by
  have hfront : Record.front d.width bytes = .incomplete :=
    Record.front_eq_incomplete_iff.2 ⟨r, more, hmore, h⟩
  simp only [step, hlive.closed, hlive.ended, hfront, Bool.false_eq_true, if_false]

end

/-! ### The steps of a search -/

section

variable {d : Deserializer} {interval : Interval} {test : Bytes → Option Nat}
  {consumed : Nat} {bytes : Bytes}

theorem findFrom_incomplete (h : d.step bytes = .stop .incomplete d) :
    d.findFrom interval test consumed bytes =
      ⟨.error (if 0 < consumed then .noMatch else .incomplete), consumed, d⟩ := by
  rw [findFrom]
  split <;> simp_all

theorem findFrom_stop {error : Error} {after : Deserializer} (h : d.step bytes = .stop error after)
    (hne : error ≠ .incomplete) :
    d.findFrom interval test consumed bytes = ⟨.error error, consumed, after⟩ := by
  rw [findFrom]
  split <;> simp_all

variable {encoded : Encoded d.width} {timestamp : Int64} {size : Nat}
  (h : d.step bytes = .event encoded timestamp size)

include h

/-- Outside of the interval a message is not put together. -/
theorem findFrom_outside (hi : interval.contains timestamp = false) :
    d.findFrom interval test consumed bytes =
      (d.commit timestamp).findFrom interval test (consumed + size) (bytes.drop size) := by
  rw [findFrom]
  split <;> simp_all

variable (hi : interval.contains timestamp = true)

include hi

theorem findFrom_fault {text : Bytes} {fault : DecodeFault}
    (hr : encoded.render = ⟨text, some fault⟩) :
    d.findFrom interval test consumed bytes =
      ⟨.error (.decode fault), consumed, d.withText text⟩ := by
  rw [findFrom]
  split <;> simp_all

theorem findFrom_found {text : Bytes} {query : Nat} (hr : encoded.render = ⟨text, none⟩)
    (hq : test text = some query) :
    d.findFrom interval test consumed bytes =
      ⟨.ok ⟨⟨text, timestamp⟩, query⟩, consumed + size, (d.withText text).commit timestamp⟩ := by
  rw [findFrom]
  split <;> simp_all

theorem findFrom_skip {text : Bytes} (hr : encoded.render = ⟨text, none⟩)
    (hq : test text = none) :
    d.findFrom interval test consumed bytes =
      ((d.withText text).commit timestamp).findFrom interval test (consumed + size)
        (bytes.drop size) := by
  rw [findFrom]
  split <;> simp_all

end

/-! ### Searching in more bytes -/

/-- What a search comes to, whether or not records were used. -/
def Search.answer (s : Search) : Result Match :=
  match s.result with
  | .error .noMatch => .error .incomplete
  | result => result

namespace Search

variable {consumed : Nat} {after : Deserializer}

theorem answer_error {error : Error} (h : error ≠ .noMatch) :
    answer ⟨.error error, consumed, after⟩ = .error error := by
  simp only [answer]
  split
  · rename_i he
    exact absurd (Except.error.inj he) h
  · rfl

/-- Without more bytes to use, a search asks for more. -/
theorem answer_incomplete (n consumed : Nat) (after : Deserializer) :
    answer ⟨.error (if 0 < n then .noMatch else .incomplete), consumed, after⟩ =
      .error .incomplete := by
  split <;> rfl

end Search

section

variable (d : Deserializer) (interval : Interval) (test : Bytes → Option Nat)
  (consumed : Nat) (bytes : Bytes)

theorem le_consumed_findFrom :
    consumed ≤ (d.findFrom interval test consumed bytes).consumed := by
  fun_induction findFrom d interval test consumed bytes with
  | case1 | case2 | case3 => exact Nat.le_refl _
  | case4 => exact Nat.le_add_right ..
  | case5 _ _ _ _ _ _ _ _ _ _ _ ih | case6 _ _ _ _ _ _ _ _ ih =>
    exact Nat.le_trans (Nat.le_add_right ..) ih

/-- A search that starts later differs in nothing but the count of used bytes. -/
theorem findFrom_add (before : Nat) :
    let s := d.findFrom interval test consumed bytes
    let s' := d.findFrom interval test (before + consumed) bytes
    s'.answer = s.answer ∧ s'.consumed = before + s.consumed ∧ s'.after = s.after := by
  fun_induction findFrom d interval test consumed bytes with
  | case1 d consumed bytes after hs =>
    -- the count decides only between two errors that `answer` takes for one
    rw [findFrom_incomplete (step_of_incomplete hs), after_of_step_incomplete hs]
    exact ⟨by rw [Search.answer_incomplete, Search.answer_incomplete], rfl, rfl⟩
  | case2 d consumed bytes error after hne hs =>
    rw [findFrom_stop hs hne]
    exact ⟨rfl, rfl, rfl⟩
  | case3 d consumed bytes encoded timestamp size hs hi text fault hr =>
    rw [findFrom_fault hs hi hr]
    exact ⟨rfl, rfl, rfl⟩
  | case4 d consumed bytes encoded timestamp size hs hi text hr query hq =>
    rw [findFrom_found hs hi hr hq]
    exact ⟨rfl, Nat.add_assoc .., rfl⟩
  | case5 d consumed bytes encoded timestamp size hs hi text hr hq ih =>
    rw [findFrom_skip hs hi hr hq, Nat.add_assoc]
    exact ih
  | case6 d consumed bytes encoded timestamp size hs hi ih =>
    rw [findFrom_outside hs (by simpa using hi), Nat.add_assoc]
    exact ih

/-- A search that does not ask for more bytes does the same with more of them. -/
theorem findFrom_append_of_settled (more : Bytes)
    (h : (d.findFrom interval test consumed bytes).answer ≠ .error .incomplete) :
    d.findFrom interval test consumed (bytes ++ more) =
      d.findFrom interval test consumed bytes := by
  fun_induction findFrom d interval test consumed bytes with
  | case1 d consumed bytes after hs =>
    -- then the search would ask for more bytes
    exact absurd (Search.answer_incomplete ..) h
  | case2 d consumed bytes error after hne hs =>
    have hstep : d.step bytes ≠ .stop .incomplete d := by
      rw [hs]
      intro hstop
      cases hstop
      exact hne rfl
    exact findFrom_stop (by rw [step_append hstep, hs]) hne
  | case3 d consumed bytes encoded timestamp size hs hi text fault hr =>
    exact findFrom_fault (step_append_of_event hs more) hi hr
  | case4 d consumed bytes encoded timestamp size hs hi text hr query hq =>
    exact findFrom_found (step_append_of_event hs more) hi hr hq
  | case5 d consumed bytes encoded timestamp size hs hi text hr hq ih =>
    rw [findFrom_skip (step_append_of_event hs more) hi hr hq,
      List.drop_append_of_le_length (size_of_step_event hs).2]
    exact ih h
  | case6 d consumed bytes encoded timestamp size hs hi ih =>
    rw [findFrom_outside (step_append_of_event hs more) (by simpa using hi),
      List.drop_append_of_le_length (size_of_step_event hs).2]
    exact ih h

/-- A search that asks for more bytes goes on behind those that it used. -/
theorem findFrom_append_of_incomplete (more : Bytes)
    (h : (d.findFrom interval test consumed bytes).answer = .error .incomplete) :
    let s := d.findFrom interval test consumed bytes
    d.findFrom interval test consumed (bytes ++ more) =
      s.after.findFrom interval test s.consumed
        (bytes.drop (s.consumed - consumed) ++ more) := by
  -- what was skipped is not looked at again
  have hdrop {d : Deserializer} {consumed size : Nat} {bytes : Bytes} :
      (bytes.drop size).drop ((d.findFrom interval test (consumed + size)
          (bytes.drop size)).consumed - (consumed + size)) =
        bytes.drop ((d.findFrom interval test (consumed + size)
          (bytes.drop size)).consumed - consumed) := by
    have hle := le_consumed_findFrom d interval test (consumed + size) (bytes.drop size)
    rw [List.drop_drop]
    congr 1
    omega
  fun_induction findFrom d interval test consumed bytes with
  | case1 d consumed bytes after hs =>
    -- here the search stopped, and here the new one starts
    obtain rfl := after_of_step_incomplete hs
    simp only [Nat.sub_self, List.drop_zero]
  | case2 d consumed bytes error after hne hs =>
    -- no other error asks for more bytes
    rw [Search.answer_error (step_eq_stop hs).1] at h
    cases h
    exact absurd rfl hne
  | case3 | case4 => cases h
  | case5 d consumed bytes encoded timestamp size hs hi text hr hq ih =>
    rw [findFrom_skip (step_append_of_event hs more) hi hr hq,
      List.drop_append_of_le_length (size_of_step_event hs).2]
    dsimp only at ih ⊢
    rw [ih h, hdrop]
  | case6 d consumed bytes encoded timestamp size hs hi ih =>
    rw [findFrom_outside (step_append_of_event hs more) (by simpa using hi),
      List.drop_append_of_le_length (size_of_step_event hs).2]
    dsimp only at ih ⊢
    rw [ih h, hdrop]

end

section

variable {d : Deserializer} {interval : Interval} {matcher : Matcher} {bytes : Bytes}

theorem find_append_of_settled (more : Bytes)
    (h : (d.find interval matcher bytes).answer ≠ .error .incomplete) :
    d.find interval matcher (bytes ++ more) = d.find interval matcher bytes :=
  findFrom_append_of_settled d interval matcher.find? 0 bytes more h

/-- A search in more bytes comes to what a new search comes to in the bytes that
    were not used. -/
theorem find_append_of_incomplete (more : Bytes)
    (h : (d.find interval matcher bytes).answer = .error .incomplete) :
    let s := d.find interval matcher bytes
    let s' := s.after.find interval matcher (bytes.drop s.consumed ++ more)
    let whole := d.find interval matcher (bytes ++ more)
    whole.answer = s'.answer ∧ whole.consumed = s.consumed + s'.consumed ∧
      whole.after = s'.after := by
  intro s s' whole
  have happend : whole = s.after.findFrom interval matcher.find? s.consumed
      (bytes.drop s.consumed ++ more) :=
    findFrom_append_of_incomplete d interval matcher.find? 0 bytes more h
  rw [happend]
  exact findFrom_add s.after interval matcher.find? 0 (bytes.drop s.consumed ++ more) s.consumed

end

end Deserializer

end LogCodec
