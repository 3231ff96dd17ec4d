import LogCodec.Proofs.Query.Language
import LogCodec.Proofs.Stream.Account

/-! # A search goes through the records in front

    A search looks at one record after another until a message matches, a message that it
    needs cannot be put together, or no complete record is left.

    * `Record.Longest`: the longest sequence of complete records at the front of some bytes.
    * `Record.timed`: the records with the times of their events, of which each depends on
      all records before it.
    * `Deserializer.Ends`: how a search through these records ends.
    * `Deserializer.scans_findFrom`: one record is passed over, or the search ends at it; and
      so for all of them by induction.
    * `Deserializer.scanned`: what a search comes to, and how many bytes it uses. -/

namespace LogCodec

/-! ### The queries that match -/

namespace Matcher

/-- The query at this index stands for the text of the message. -/
def Accepts (m : Matcher) (index : Nat) (message : Bytes) : Prop :=
  ∃ query, m.compiled[index]? = some query ∧
    Query.Matches query.1 query.2 (Utf8.lossy message)

/-- It is the first query that does. -/
def Picks (m : Matcher) (index : Nat) (message : Bytes) : Prop :=
  m.Accepts index message ∧ ∀ earlier < index, ¬m.Accepts earlier message

variable {m : Matcher} {message : Bytes}

theorem picks_of_find? {index : Nat} (h : m.find? message = some index) :
    m.Picks index message := by
  obtain ⟨hlt, haccepts, hearlier⟩ := List.findIdx?_eq_some_iff_getElem.1 h
  refine ⟨⟨_, List.getElem?_eq_getElem hlt, Query.matchesText_iff.1 haccepts⟩, ?_⟩
  rintro earlier hless ⟨query, hquery, hmatches⟩
  obtain ⟨hlt', rfl⟩ := List.getElem?_eq_some_iff.1 hquery
  exact hearlier earlier hless (Query.matchesText_iff.2 hmatches)

theorem not_accepts_of_find? (h : m.find? message = none) (index : Nat) :
    ¬m.Accepts index message := by
  rintro ⟨query, hquery, hmatches⟩
  have hnone : Query.matchesText query.1 query.2 (Utf8.lossy message) = false :=
    List.findIdx?_eq_none_iff.1 h query (List.mem_of_getElem? hquery)
  rw [Query.matchesText_iff.2 hmatches] at hnone
  cases hnone

end Matcher

/-! ### Records in front -/

namespace Record

variable {w : Width}

/-- How many bytes the record has in a stream. -/
def size (r : Record w) : Nat :=
  25 + r.encoded.logType.length + w.size * r.encoded.inline.length + r.encoded.dictionary.length +
    4 * r.encoded.ends.length

theorem length_of_toBytes {r : Record w} {bytes : Bytes} (h : r.toBytes = .ok bytes) :
    bytes.length = r.size := by
  obtain ⟨-, rfl⟩ := toBytes_eq_ok_iff.1 h
  have hends : (r.encoded.ends.flatMap Variable.toBytes).length = r.encoded.ends.length * 4 :=
    Cursor.length_flatMap_toBytes _
  simp only [fields, size, List.length_cons, List.length_append, Word.length_toBytes,
    Word.length_ofInt64, Cursor.length_flatMap_toBytes, hends, Cursor.lengthSize,
    Nat.mul_comm w.size]
  omega

/-- The tag, the four counts and the time have 25 bytes. -/
theorem le_sum_size (records : List (Record w)) : 25 * records.length ≤ (records.map size).sum := by
  induction records with
  | nil => exact Nat.le_refl 0
  | cons r rest ih =>
    rw [List.length_cons, List.map_cons, List.sum_cons, size]
    omega

/-- The bytes begin with these records, and with no sequence of records that goes on. -/
structure Longest (records : List (Record w)) (bytes tail : Bytes) : Prop where
  spelled : ∃ front, Spells records front ∧ bytes = front ++ tail
  longest : ∀ records' front rest, Spells records' front → bytes = front ++ rest →
    records' <+: records

/-- Where no record stands, there is no sequence of them. -/
theorem longest_nil {bytes : Bytes} (h : ∀ r size, front w bytes ≠ .event r size) :
    Longest (w := w) [] bytes bytes := by
  refine ⟨⟨[], .nil, rfl⟩, ?_⟩
  intro records front rest hspells hbytes
  cases hspells with
  | nil => exact List.nil_prefix
  | cons hr hrest =>
    rw [List.append_assoc] at hbytes
    rw [hbytes] at h
    exact absurd (front_toBytes_append hr _) (h _ _)

/-- One more record in front. -/
theorem Longest.cons {r : Record w} {record bytes tail : Bytes} {records : List (Record w)}
    (hr : r.toBytes = .ok record) (h : Longest records bytes tail) :
    Longest (r :: records) (record ++ bytes) tail := by
  obtain ⟨front, hspells, rfl⟩ := h.spelled
  refine ⟨⟨record ++ front, .cons hr hspells, by rw [List.append_assoc]⟩, ?_⟩
  intro records' front' rest' hspells' hbytes
  cases hspells' with
  | nil => exact List.nil_prefix
  | @cons r' records' record' front' hr' hrest' =>
    have hfront := front_toBytes_append hr (front ++ tail)
    rw [hbytes, List.append_assoc, front_toBytes_append hr'] at hfront
    injection hfront with hrecord hsize
    rw [List.append_assoc] at hbytes
    obtain ⟨-, hbytes⟩ := List.append_inj hbytes hsize.symm
    rw [hrecord]
    exact List.cons_prefix_cons.2 ⟨rfl, h.longest _ _ _ hrest' hbytes⟩

/-- Behind the longest sequence there is no record. -/
theorem Longest.front_ne {records : List (Record w)} {bytes tail : Bytes}
    (h : Longest records bytes tail) (r : Record w) (size : Nat) :
    front w tail ≠ .event r size := by
  intro hfront
  obtain ⟨front, hspells, rfl⟩ := h.spelled
  obtain ⟨record, rest, hr, rfl, -⟩ := front_eq_event_iff.1 hfront
  have hinitial := h.longest _ _ rest (hspells.append (spells_singleton hr))
    (by rw [List.append_assoc])
  have hlength := hinitial.length_le
  simp at hlength

/-- There is a longest sequence of records. -/
theorem exists_longest (w : Width) (bytes : Bytes) :
    ∃ (records : List (Record w)) (tail : Bytes), Longest records bytes tail := by
  induction hlength : bytes.length using Nat.strongRecOn generalizing bytes with
  | ind n ih =>
    by_cases hevent : ∃ r size, front w bytes = .event r size
    · obtain ⟨r, size, hfront⟩ := hevent
      have hpos := (size_of_front_event hfront).1
      obtain ⟨record, rest, hr, rfl, rfl⟩ := front_eq_event_iff.1 hfront
      rw [List.length_append] at hlength
      obtain ⟨records, tail, hrest⟩ := ih rest.length (by omega) rest rfl
      exact ⟨r :: records, tail, hrest.cons hr⟩
    · exact ⟨[], bytes, longest_nil fun r size hfront => hevent ⟨r, size, hfront⟩⟩

/-- Records from the front have their bytes at the front. -/
theorem Spells.take {records used : List (Record w)} {bytes : Bytes}
    (h : Spells records bytes) (hinitial : used <+: records) :
    (used.map size).sum ≤ bytes.length ∧ Spells used (bytes.take (used.map size).sum) := by
  induction h generalizing used with
  | nil =>
    rw [List.prefix_nil.1 hinitial]
    exact ⟨Nat.le_refl 0, .nil⟩
  | @cons r records record rest hr _ ih =>
    cases used with
    | nil => exact ⟨Nat.zero_le _, .nil⟩
    | cons r' others =>
      obtain ⟨rfl, hothers⟩ := List.cons_prefix_cons.1 hinitial
      obtain ⟨hle, hspells⟩ := ih hothers
      rw [List.map_cons, List.sum_cons, ← length_of_toBytes hr, List.length_append,
        List.take_length_add_append]
      exact ⟨Nat.add_le_add_left hle _, .cons hr hspells⟩

/-- The records with the times of their events, after an event at the time `start`. -/
def timed (start : Int64) : List (Record w) → List (Record w × Int64)
  | [] => []
  | r :: rest => (r, w.eventTime start r.time) :: timed (w.eventTime start r.time) rest

end Record

namespace Deserializer

open Record (Longest timed)

variable {w : Width} {interval : Interval} {matcher : Matcher} {tail : Bytes}

/-! ### How a search ends -/

/-- A record that a search passes over: its event is outside the interval, whether or not a
    message can be put together from it, or its message matches no query. -/
def Passes (interval : Interval) (matcher : Matcher) (p : Record w × Int64) : Prop :=
  interval.contains p.2 = false ∨
    ∃ text, p.1.encoded.decode = .ok text ∧ ∀ index, ¬matcher.Accepts index text

/-- What is reported where no complete record is left, with these bytes behind the last
    one.  It depends on whether records were used. -/
def tailError (tail : Bytes) (used : Bool) : Error :=
  match tail with
  | [] => if used then .noMatch else .incomplete
  | tag :: _ =>
    if tag = 0x00 then .endOfStream
    else if tag = 0x01 then if used then .noMatch else .incomplete
    else .corrupted (.unknownTag tag)

/-- How a search through records ends, the result and the records that it uses.  `begun`
    says whether records were used before these. -/
inductive Ends (interval : Interval) (matcher : Matcher) (tail : Bytes) (begun : Bool) :
    List (Record w × Int64) → Result Match → List (Record w) → Prop where
  /-- A message in the interval cannot be put together.  Its record is not used. -/
  | fault {before after : List (Record w × Int64)} {r : Record w} {time : Int64}
      {fault : DecodeFault} :
    (∀ p ∈ before, Passes interval matcher p) → interval.contains time = true →
    r.encoded.decode = .error (.decode fault) →
    Ends interval matcher tail begun (before ++ (r, time) :: after) (.error (.decode fault))
      (before.map Prod.fst)
  /-- A message in the interval matches. -/
  | found {before after : List (Record w × Int64)} {r : Record w} {time : Int64} {text : Bytes}
      {index : Nat} :
    (∀ p ∈ before, Passes interval matcher p) → interval.contains time = true →
    r.encoded.decode = .ok text → matcher.Picks index text →
    Ends interval matcher tail begun (before ++ (r, time) :: after) (.ok ⟨⟨text, time⟩, index⟩)
      (before.map Prod.fst ++ [r])
  /-- All records are passed over. -/
  | exhausted {all : List (Record w × Int64)} :
    (∀ p ∈ all, Passes interval matcher p) →
    Ends interval matcher tail begun all (.error (tailError tail (begun || !all.isEmpty)))
      (all.map Prod.fst)

section

variable {begun : Bool} {r : Record w} {time : Int64} {rest : List (Record w × Int64)}
  (hinside : interval.contains time = true)

include hinside

/-- The search ends at the first record. -/
theorem Ends.fault_first {fault : DecodeFault}
    (hdecode : r.encoded.decode = .error (.decode fault)) :
    Ends interval matcher tail begun ((r, time) :: rest) (.error (.decode fault)) [] := by
  have hbefore : ∀ p ∈ ([] : List (Record w × Int64)), Passes interval matcher p := by simp
  exact .fault hbefore hinside hdecode

theorem Ends.found_first {text : Bytes} {index : Nat} (hdecode : r.encoded.decode = .ok text)
    (hpicks : matcher.Picks index text) :
    Ends interval matcher tail begun ((r, time) :: rest) (.ok ⟨⟨text, time⟩, index⟩) [r] := by
  have hbefore : ∀ p ∈ ([] : List (Record w × Int64)), Passes interval matcher p := by simp
  exact .found hbefore hinside hdecode hpicks

end

/-- One more record that is passed over. -/
theorem Ends.cons {begun : Bool} {r : Record w} {time : Int64} {rest : List (Record w × Int64)}
    {result : Result Match} {used : List (Record w)} (hpasses : Passes interval matcher (r, time))
    (h : Ends interval matcher tail true rest result used) :
    Ends interval matcher tail begun ((r, time) :: rest) result (r :: used) := by
  cases h with
  | fault hbefore hinside hdecode =>
    exact .fault (List.forall_mem_cons.2 ⟨hpasses, hbefore⟩) hinside hdecode
  | found hbefore hinside hdecode hpicks =>
    exact .found (List.forall_mem_cons.2 ⟨hpasses, hbefore⟩) hinside hdecode hpicks
  | exhausted hall =>
    have hexhausted : Ends interval matcher tail begun ((r, time) :: rest) _ _ :=
      .exhausted (List.forall_mem_cons.2 ⟨hpasses, hall⟩)
    simpa using hexhausted

/-! ### Going through the records -/

/-- The front of the bytes decides what is reported. -/
theorem tailError_eq (w : Width) (tail : Bytes) (used : Bool) :
    tailError tail used = match Record.front w tail with
      | .finish => .endOfStream
      | .unknown tag => .corrupted (.unknownTag tag)
      | _ => if used then .noMatch else .incomplete := by
  cases tail with
  | nil => rfl
  | cons tag rest =>
    by_cases hevent : tag = 0x01
    · subst hevent
      cases hfront : Record.front w (0x01 :: rest) with
      | event | incomplete => rfl
      | finish =>
        obtain ⟨_, heq⟩ := Record.front_eq_finish_iff.1 hfront
        cases heq
      | unknown tag =>
        obtain ⟨_, heq, -, hne⟩ := Record.front_eq_unknown_iff.1 hfront
        exact absurd (List.cons.inj heq).1.symm hne
    · by_cases hend : tag = 0x00
      · subst hend
        rfl
      · have hfront : Record.front w (tag :: rest) = .unknown tag :=
          Record.front_eq_unknown_iff.2 ⟨rest, rfl, hend, hevent⟩
        rw [hfront, tailError, if_neg hend, if_neg hevent]

/-- Where no record is left, the search ends. -/
theorem findFrom_tail {d : Deserializer} (hlive : d.Live) (interval : Interval)
    (matcher : Matcher) (htail : ∀ r size, Record.front d.width tail ≠ .event r size)
    (consumed : Nat) :
    (d.findFrom interval matcher.find? consumed tail).result =
        .error (tailError tail (decide (0 < consumed))) ∧
      (d.findFrom interval matcher.find? consumed tail).consumed = consumed := by
  rw [tailError_eq d.width]
  have hclosed : ¬d.closed = true := by simp [hlive.closed]
  have hended : ¬d.ended = true := by simp [hlive.ended]
  cases hfront : Record.front d.width tail with
  | event r size => exact absurd hfront (htail r size)
  | finish =>
    have hstep : d.step tail = .stop .endOfStream { d with ended := true } := by
      simp only [step, if_neg hclosed, if_neg hended, hfront]
    rw [findFrom_stop hstep (by simp)]
    exact ⟨rfl, rfl⟩
  | unknown tag =>
    have hstep : d.step tail = .stop (.corrupted (.unknownTag tag)) d := by
      simp only [step, if_neg hclosed, if_neg hended, hfront]
    rw [findFrom_stop hstep (by simp)]
    exact ⟨rfl, rfl⟩
  | incomplete =>
    have hstep : d.step tail = .stop .incomplete d := by
      simp only [step, if_neg hclosed, if_neg hended, hfront]
    rw [findFrom_incomplete hstep]
    simp

section

variable {e : Encoded w} {text : Bytes}

theorem decode_of_render (h : e.render = ⟨text, none⟩) : e.decode = .ok text := by
  simp only [Encoded.decode, h]

theorem decode_of_render_fault {fault : DecodeFault} (h : e.render = ⟨text, some fault⟩) :
    e.decode = .error (.decode fault) := by
  simp only [Encoded.decode, h]

end

/-- The search goes through these records, the first of them after an event at the time
    `running`, and uses some of them from the front. -/
def Scans (interval : Interval) (matcher : Matcher) (tail : Bytes) (running : Int64)
    (consumed : Nat) (records : List (Record w)) (s : Search) : Prop :=
  ∃ used, Ends interval matcher tail (decide (0 < consumed)) (timed running records) s.result
      used ∧
    s.consumed = consumed + (used.map Record.size).sum ∧ used <+: records

/-- A record that is passed over leaves the search to the records behind it. -/
theorem Scans.cons {running : Int64} {consumed : Nat} {r : Record w} {records : List (Record w)}
    {s : Search} (hpasses : Passes interval matcher (r, w.eventTime running r.time))
    (h : Scans interval matcher tail (w.eventTime running r.time) (consumed + r.size) records s) :
    Scans interval matcher tail running consumed (r :: records) s := by
  obtain ⟨used, hends, hconsumed, hinitial⟩ := h
  have hbegun : decide (0 < consumed + r.size) = true := by
    rw [Record.size, decide_eq_true_eq]
    omega
  rw [hbegun] at hends
  refine ⟨r :: used, hends.cons hpasses, ?_, List.cons_prefix_cons.2 ⟨rfl, hinitial⟩⟩
  rw [hconsumed, List.map_cons, List.sum_cons, Nat.add_assoc]

/-- **Going through the records.**  One record is passed over, or the search ends at it;
    behind the last one the search ends as the bytes there say. -/
theorem scans_findFrom {records : List (Record w)} {front : Bytes}
    (hspells : Record.Spells records front)
    (htail : ∀ (r : Record w) size, Record.front w tail ≠ .event r size) {d : Deserializer}
    (hw : d.width = w) (hlive : d.Live) (consumed : Nat) :
    Scans interval matcher tail d.running consumed records
      (d.findFrom interval matcher.find? consumed (front ++ tail)) := by
  -- on the records that are left
  induction hspells generalizing d consumed with
  | nil =>
    subst hw
    obtain ⟨hresult, hconsumed⟩ := findFrom_tail hlive interval matcher htail consumed
    refine ⟨[], ?_, hconsumed, List.nil_prefix⟩
    have hexhausted : Ends interval matcher tail (decide (0 < consumed))
        (timed d.running ([] : List (Record d.width))) _ _ := .exhausted (by simp [timed])
    rw [List.nil_append, hresult]
    simpa [timed] using hexhausted
  | @cons r records record front hr hrest ih =>
    subst hw
    have hstep := step_toBytes_append hlive hr (front ++ tail)
    have hsize := Record.length_of_toBytes hr
    have hlater (d' : Deserializer) (hwidth : d'.width = d.width) (hlive' : d'.Live) :
        Scans interval matcher tail d'.running (consumed + r.size) records
          (d'.findFrom interval matcher.find? (consumed + record.length)
            ((record ++ (front ++ tail)).drop record.length)) := by
      rw [List.drop_left, hsize]
      exact ih hwidth hlive' (consumed + r.size)
    rw [List.append_assoc]
    by_cases hinside : interval.contains (d.eventTime r.time) = true
    · cases hrender : r.encoded.render with
      | mk text fault =>
        cases fault with
        | some fault =>
          rw [findFrom_fault hstep hinside hrender]
          exact ⟨[], .fault_first hinside (decode_of_render_fault hrender), rfl,
            List.nil_prefix⟩
        | none =>
          have hdecode := decode_of_render hrender
          cases hfind : matcher.find? text with
          | some index =>
            rw [findFrom_found hstep hinside hrender hfind]
            refine ⟨[r], .found_first hinside hdecode (Matcher.picks_of_find? hfind), ?_,
              List.cons_prefix_cons.2 ⟨rfl, List.nil_prefix⟩⟩
            simp [hsize]
          | none =>
            rw [findFrom_skip hstep hinside hrender hfind]
            exact .cons (.inr ⟨text, hdecode, Matcher.not_accepts_of_find? hfind⟩)
              (hlater ((d.withText text).commit _) rfl ⟨hlive.closed, hlive.ended⟩)
    · rw [Bool.not_eq_true] at hinside
      rw [findFrom_outside hstep hinside]
      exact .cons (.inl hinside) (hlater (d.commit _) rfl ⟨hlive.closed, hlive.ended⟩)

/-- **What a search comes to.**  Some complete records stand at the front of the bytes, as
    many as there are, and the search goes through them.  It stops at the first one in the
    interval whose message cannot be put together or matches a query, and otherwise behind
    the last one.  What it uses are the records before the place where it stops, and the one
    that it finds, and nothing else.  Each of them has at least 25 bytes. -/
theorem scanned {d : Deserializer} (h : d.Live) (interval : Interval) (matcher : Matcher)
    (bytes : Bytes) :
    let s := d.find interval matcher bytes
    ∃ (records used : List (Record d.width)) (tail : Bytes),
      Longest records bytes tail ∧
      Ends interval matcher tail false (timed d.running records) s.result used ∧
      used <+: records ∧ Record.Spells used (bytes.take s.consumed) ∧
      s.consumed = (used.map Record.size).sum ∧ s.consumed ≤ bytes.length ∧
      25 * used.length ≤ s.consumed := by
  intro s
  obtain ⟨records, tail, hlongest⟩ := Record.exists_longest d.width bytes
  obtain ⟨front, hspells, rfl⟩ := hlongest.spelled
  obtain ⟨used, hends, hconsumed, hinitial⟩ : Scans interval matcher tail d.running 0 records s :=
    scans_findFrom hspells hlongest.front_ne rfl h 0
  rw [Nat.zero_add] at hconsumed
  obtain ⟨hle, hused⟩ := hspells.take hinitial
  refine ⟨records, used, tail, hlongest, hends, hinitial, ?_, hconsumed, ?_, ?_⟩
  · rw [hconsumed, List.take_append_of_le_length hle]
    exact hused
  · rw [hconsumed, List.length_append]
    exact Nat.le_add_right_of_le hle
  · rw [hconsumed]
    exact Record.le_sum_size used

/-- Five records.  The first one is too late for the interval, and no message can be put
    together from it; the second message matches no query, and the third one matches the
    second query.  The fourth one is too late again, and from the last one, which is in the
    interval, no message can be put together. -/
def mixedRecords : Bytes :=
  [1, 0, 0, 0, 1, 0x11, 0, 0, 0, 0, 0, 0, 0, 0, 0, 0, 0, 0, 0, 0, 0, 0, 0, 0, 0, 9] ++
    ([1, 0, 0, 0, 1, 0x62, 0, 0, 0, 0, 0, 0, 0, 0, 0, 0, 0, 0,
        0xFF, 0xFF, 0xFF, 0xFF, 0xFF, 0xFF, 0xFF, 0xF8] ++
      ([1, 0, 0, 0, 2, 0x63, 0x61, 0, 0, 0, 0, 0, 0, 0, 0, 0, 0, 0, 0, 0, 0, 0, 0, 0, 0, 0, 1] ++
        ([1, 0, 0, 0, 1, 0x63, 0, 0, 0, 0, 0, 0, 0, 0, 0, 0, 0, 0, 0, 0, 0, 0, 0, 0, 0, 9] ++
          [1, 0, 0, 0, 1, 0x11, 0, 0, 0, 0, 0, 0, 0, 0, 0, 0, 0, 0,
            0xFF, 0xFF, 0xFF, 0xFF, 0xFF, 0xFF, 0xFF, 0xF6])))

/-- One search finds the third of them, and a second search stops at the last one. -/
theorem scanned_mixed :
    let d := ofPreamble ⟨.fourByte, ⟨"", "", ""⟩, 5⟩
    let matcher := Matcher.ofQueries [⟨"a*", true⟩, ⟨"C*", false⟩]
    let s := d.find ⟨0, 10⟩ matcher mixedRecords
    let rest := mixedRecords.drop 79
    let s' := s.after.find ⟨0, 10⟩ matcher rest
    (s.result = .ok ⟨⟨[0x63, 0x61], 7⟩, 1⟩ ∧ s.consumed = 79 ∧ s.after.running = 7) ∧
      (s'.result = .error (.decode (.integerWithoutVariable 0)) ∧ s'.consumed = 26) ∧
      (∃ (records used : List (Record d.width)) (tail : Bytes),
        Longest records mixedRecords tail ∧
        Ends ⟨0, 10⟩ matcher tail false (timed d.running records) s.result used ∧
        used <+: records ∧ Record.Spells used (mixedRecords.take s.consumed) ∧
        s.consumed = (used.map Record.size).sum ∧ s.consumed ≤ mixedRecords.length ∧
        25 * used.length ≤ s.consumed) ∧
      ∃ (records used : List (Record s.after.width)) (tail : Bytes),
        Longest records rest tail ∧
        Ends ⟨0, 10⟩ matcher tail false (timed s.after.running records) s'.result used ∧
        used <+: records ∧ Record.Spells used (rest.take s'.consumed) ∧
        s'.consumed = (used.map Record.size).sum ∧ s'.consumed ≤ rest.length ∧
        25 * used.length ≤ s'.consumed := by
  intro d matcher s rest s'
  have hfound : s.result = .ok ⟨⟨[0x63, 0x61], 7⟩, 1⟩ ∧ s.consumed = 79 ∧
      s.after.running = 7 := by
    decide +kernel
  have hstopped : s'.result = .error (.decode (.integerWithoutVariable 0)) ∧
      s'.consumed = 26 := by
    decide +kernel
  have hlive : d.Live := ⟨rfl, rfl⟩
  have hlive' : s.after.Live := ⟨by decide +kernel, by decide +kernel⟩
  exact ⟨hfound, hstopped, scanned hlive ⟨0, 10⟩ matcher mixedRecords,
    scanned hlive' ⟨0, 10⟩ matcher rest⟩

end Deserializer

end LogCodec
