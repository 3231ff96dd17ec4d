import LogCodec.Proofs.Stream.Deserializer

/-! # The framing of records

    A record is framed: the tag, four fields that start with the count of their
    items, and eight bytes for the time.  The counts decide alone how long the
    record is, so there is nothing that both is a record and continues to a
    longer one.

    * `Record.Counted`: a field after the count of its items.
    * `Record.Framed`: the bytes of one record.
    * `Record.framed_iff`: these are the bytes that are written for records.
    * `Record.stored_faithfully`: writing and reading records are inverse to each
      other.
    * `Deserializer.next_classified`: the front of any bytes is a record, a part
      of a record, the end of the stream, or none of these, and the answer says
      which.  More bytes change only the second of these answers. -/

namespace LogCodec

namespace Record

/-! ### Framed bytes -/

/-- A count in four bytes, and as many items of `size` bytes each. -/
inductive Counted (size : Nat) : Bytes → Prop where
  | intro {count : Nat} {items : Bytes} :
    count < 2 ^ 32 → items.length = count * size → Counted size (Word.toBytes 4 count ++ items)

/-- The bytes of one record: its tag, the log type, the inline variables, the
    dictionary, the ends of the dictionary variables, and the time. -/
inductive Framed (w : Width) : Bytes → Prop where
  | intro {logType inline dictionary ends time : Bytes} :
    Counted 1 logType → Counted w.size inline → Counted 1 dictionary → Counted 4 ends →
    time.length = 8 →
    Framed w (0x01 :: (logType ++ (inline ++ (dictionary ++ (ends ++ time)))))

/-- A part of a record from its front, maybe empty, but not all of it. -/
def Cut (w : Width) (bytes : Bytes) : Prop := ∃ more, more ≠ [] ∧ Framed w (bytes ++ more)

theorem counted_bytes {bytes : Bytes} (h : bytes.length ≤ Cursor.lengthMax) :
    Counted 1 (Word.toBytes Cursor.lengthSize bytes.length ++ bytes) :=
  .intro (Nat.lt_succ_of_le h) (Nat.mul_one _).symm

theorem counted_variables {w : Width} {vars : List (Variable w)}
    (h : vars.length ≤ Cursor.lengthMax) :
    Counted w.size
      (Word.toBytes Cursor.lengthSize vars.length ++ vars.flatMap Variable.toBytes) :=
  .intro (Nat.lt_succ_of_le h) (Cursor.length_flatMap_toBytes vars)

/-- A field of single bytes holds some bytes. -/
theorem Counted.exists_bytes {field : Bytes} (h : Counted 1 field) :
    ∃ bytes : Bytes, bytes.length ≤ Cursor.lengthMax ∧
      field = Word.toBytes Cursor.lengthSize bytes.length ++ bytes := by
  obtain ⟨hcount, hitems⟩ := h
  rw [Nat.mul_one] at hitems
  subst hitems
  exact ⟨_, Nat.le_of_lt_succ hcount, rfl⟩

/-- A field of variables holds some variables. -/
theorem Counted.exists_variables {w : Width} {field : Bytes} (h : Counted w.size field) :
    ∃ vars : List (Variable w), vars.length ≤ Cursor.lengthMax ∧
      field = Word.toBytes Cursor.lengthSize vars.length ++ vars.flatMap Variable.toBytes := by
  cases h with
  | @intro count items hcount hitems =>
    obtain ⟨hbytes, hlength⟩ := Cursor.flatMap_splitVariables hitems
    refine ⟨Cursor.splitVariables w count items, ?_, ?_⟩
    · rw [hlength]
      exact Nat.le_of_lt_succ hcount
    · rw [hlength, hbytes]
      rfl

/-- **What is framed is what is written.** -/
theorem framed_iff {w : Width} {bytes : Bytes} :
    Framed w bytes ↔ ∃ r : Record w, r.toBytes = .ok bytes := by
  constructor
  · intro h
    cases h with
    | @intro _ _ _ _ time hlogType hinline hdictionary hends htime =>
      obtain ⟨logType, hf₁, rfl⟩ := hlogType.exists_bytes
      obtain ⟨inline, hf₂, rfl⟩ := hinline.exists_variables
      obtain ⟨dictionary, hf₃, rfl⟩ := hdictionary.exists_bytes
      -- the ends are kept as variables of four bytes in every stream
      have hends : Counted Width.fourByte.size _ := hends
      obtain ⟨ends, hf₄, rfl⟩ := hends.exists_variables
      refine ⟨⟨⟨logType, inline, dictionary, ends⟩, Word.toInt64 (Word.ofBytes time)⟩, ?_⟩
      refine toBytes_eq_ok_iff.2 ⟨⟨hf₁, hf₂, hf₃, hf₄⟩, ?_⟩
      rw [fields, Word.ofInt64_toInt64 htime]
      rfl
  · rintro ⟨r, hrecord⟩
    obtain ⟨hfits, rfl⟩ := toBytes_eq_ok_iff.1 hrecord
    exact .intro (counted_bytes hfits.logType) (counted_variables hfits.inline)
      (counted_bytes hfits.dictionary) (counted_variables hfits.ends)
      (Word.length_ofInt64 r.time)

/-! ### Writing and reading -/

/-- What is written for a record is read as that record, up to its last byte. -/
theorem exists_written {w : Width} {r : Record w} (h : Fits r.encoded) :
    ∃ stored, r.toBytes = .ok (eventTag :: stored) ∧ Framed w (eventTag :: stored) ∧
      ∀ rest, body? w ⟨stored ++ rest, 1⟩ = some (r, ⟨rest, (eventTag :: stored).length⟩) := by
  have hwritten : r.toBytes = .ok (eventTag :: r.fields) := toBytes_eq_ok_iff.2 ⟨h, rfl⟩
  refine ⟨r.fields, hwritten, framed_iff.2 ⟨r, hwritten⟩, ?_⟩
  intro rest
  rw [takes_body? h rest 1, List.length_cons, Nat.add_comm]

/-- What was read as a record is written for it. -/
theorem toBytes_of_body? {w : Width} {r : Record w} {bytes : Bytes} {c : Cursor}
    (h : body? w ⟨bytes, 1⟩ = some (r, c)) :
    c.pos ≤ (eventTag :: bytes).length ∧ r.toBytes = .ok ((eventTag :: bytes).take c.pos) := by
  obtain ⟨hfits, hrest, hpos⟩ := passes_body? h
  -- the cursor started behind the tag and passed the fields
  have hsize : c.pos = (eventTag :: r.fields).length := by
    rw [hpos, List.length_cons, Nat.add_comm]
  have hbytes : eventTag :: bytes = (eventTag :: r.fields) ++ c.rest := by
    rw [List.cons_append]
    exact congrArg _ hrest
  rw [hbytes, hsize, List.take_left]
  constructor
  · rw [List.length_append]
    exact Nat.le_add_right ..
  · exact toBytes_eq_ok_iff.2 ⟨hfits, rfl⟩

/-- No two records are written alike. -/
theorem eq_of_toBytes_eq {w : Width} {r r' : Record w} {bytes : Bytes}
    (h : r.toBytes = .ok bytes) (h' : r'.toBytes = .ok bytes) : r = r' := by
  have hfront := front_toBytes_append h []
  rw [front_toBytes_append h' []] at hfront
  injection hfront with hrecord
  exact hrecord.symm

/-- **Records are stored faithfully**, whether or not a message can be put together
    from them.  A record whose lengths fit into their fields is written behind its
    tag, and what is written is read as that record and nothing more, whatever
    follows.  Conversely the bytes that were read as a record are the ones that are
    written for it, so that everything framed as a record is written for exactly
    one. -/
theorem stored_faithfully (w : Width) :
    (∀ r : Record w, Fits r.encoded → ∃ stored,
      r.toBytes = .ok (eventTag :: stored) ∧ Framed w (eventTag :: stored) ∧
      ∀ rest, body? w ⟨stored ++ rest, 1⟩ = some (r, ⟨rest, (eventTag :: stored).length⟩)) ∧
    (∀ (bytes : Bytes) (r : Record w) (c : Cursor), body? w ⟨bytes, 1⟩ = some (r, c) →
      c.pos ≤ (eventTag :: bytes).length ∧
      r.toBytes = .ok ((eventTag :: bytes).take c.pos)) ∧
    (∀ bytes, Framed w bytes → ∃! r : Record w, r.toBytes = .ok bytes) := by
  refine ⟨fun r => exists_written, fun bytes r c => toBytes_of_body?, ?_⟩
  intro bytes hframed
  obtain ⟨r, hr⟩ := framed_iff.1 hframed
  exact ⟨r, hr, fun r' hr' => eq_of_toBytes_eq hr' hr⟩

/-- A record of which no message can be put together, with the least and the greatest
    numbers in its fields. -/
theorem stored_faithfully_extremes :
    ∃ stored, Record.toBytes (w := .fourByte)
        ⟨⟨[0x11, 0xFF], [BitVec.intMin _, BitVec.intMax _], [0x00], [-1, BitVec.intMin _]⟩,
          Int64.minValue⟩ = .ok (eventTag :: stored) ∧
      body? .fourByte ⟨stored ++ [0xFF], 1⟩ = some
        (⟨⟨[0x11, 0xFF], [BitVec.intMin _, BitVec.intMax _], [0x00], [-1, BitVec.intMin _]⟩,
          Int64.minValue⟩, ⟨[0xFF], (eventTag :: stored).length⟩) := by
  have hfits : Fits (w := .fourByte)
      ⟨[0x11, 0xFF], [BitVec.intMin _, BitVec.intMax _], [0x00], [-1, BitVec.intMin _]⟩ := by
    constructor <;> decide
  obtain ⟨stored, hwritten, -, hread⟩ := (stored_faithfully .fourByte).1 ⟨_, Int64.minValue⟩ hfits
  exact ⟨stored, hwritten, hread [0xFF]⟩

/-! ### The front of some bytes -/

variable {w : Width} {bytes : Bytes}

theorem front_eq_incomplete_iff_cut : front w bytes = .incomplete ↔ Cut w bytes := by
  rw [front_eq_incomplete_iff]
  constructor
  · rintro ⟨r, more, hmore, hrecord⟩
    exact ⟨more, hmore, framed_iff.2 ⟨r, hrecord⟩⟩
  · rintro ⟨more, hmore, hframed⟩
    obtain ⟨r, hrecord⟩ := framed_iff.1 hframed
    exact ⟨r, more, hmore, hrecord⟩

theorem front_eq_unknown_iff {tag : UInt8} :
    front w bytes = .unknown tag ↔ ∃ rest, bytes = tag :: rest ∧ tag ≠ endTag ∧ tag ≠ eventTag := by
  cases bytes with
  | nil => simp [front]
  | cons first rest =>
    rw [front]
    by_cases hevent : first = eventTag
    · subst hevent
      rw [if_pos rfl]
      constructor
      · intro h
        split at h <;> cases h
      · rintro ⟨_, heq, -, hne⟩
        exact absurd (List.cons.inj heq).1.symm hne
    · rw [if_neg hevent]
      by_cases hend : first = endTag
      · subst hend
        rw [if_pos rfl]
        constructor
        · intro h
          cases h
        · rintro ⟨_, heq, hne, -⟩
          exact absurd (List.cons.inj heq).1.symm hne
      · rw [if_neg hend]
        constructor
        · intro h
          cases h
          exact ⟨rest, rfl, hend, hevent⟩
        · rintro ⟨_, heq, -, -⟩
          rw [(List.cons.inj heq).1]

/-- Framed bytes are made out as a record, whatever follows them. -/
theorem Framed.front_append {record : Bytes} (h : Framed w record) (rest : Bytes) :
    ∃ r, front w (record ++ rest) = .event r record.length := by
  obtain ⟨r, hrecord⟩ := framed_iff.1 h
  exact ⟨r, front_toBytes_append hrecord rest⟩

/-- Two records at the front of the same bytes are the same. -/
theorem Framed.unique {record rest record' rest' : Bytes} (h : Framed w record)
    (h' : Framed w record') (heq : record ++ rest = record' ++ rest') : record = record' := by
  obtain ⟨r, hfront⟩ := h.front_append rest
  obtain ⟨r', hfront'⟩ := h'.front_append rest'
  rw [heq, hfront'] at hfront
  injection hfront with _ hsize
  exact (List.append_inj heq hsize.symm).1

end Record

namespace Deserializer

variable {d : Deserializer} {bytes : Bytes}

/-- What a deserializer that still reads answers to the front of some bytes. -/
theorem Live.next_eq (h : d.Live) : d.next bytes =
    match Record.front d.width bytes with
    | .event r size =>
      match r.encoded.render with
      | ⟨text, some fault⟩ => (.error (.decode fault), d.withText text)
      | ⟨text, none⟩ =>
        (.ok (⟨text, d.eventTime r.time⟩, size), (d.withText text).commit (d.eventTime r.time))
    | .finish => (.error .endOfStream, { d with ended := true })
    | .unknown tag => (.error (.corrupted (.unknownTag tag)), d)
    | .incomplete => (.error .incomplete, d) := by
  simp only [next, step, h.closed, h.ended, Bool.false_eq_true, if_false]
  cases Record.front d.width bytes <;> rfl

/-- A record is read, or its message cannot be put together. -/
theorem Live.next_of_framed (h : d.Live) {record : Bytes} (hframed : Record.Framed d.width record)
    (rest : Bytes) :
    (∃ event, (d.next (record ++ rest)).1 = .ok (event, record.length)) ∨
      ∃ fault, (d.next (record ++ rest)).1 = .error (.decode fault) := by
  obtain ⟨r, hfront⟩ := hframed.front_append rest
  rw [h.next_eq, hfront]
  dsimp only
  split
  · exact .inr ⟨_, rfl⟩
  · exact .inl ⟨_, rfl⟩

section

variable (h : d.Live)

include h

theorem Live.next_incomplete_iff :
    (d.next bytes).1 = .error .incomplete ↔ Record.Cut d.width bytes := by
  rw [← Record.front_eq_incomplete_iff_cut, h.next_eq]
  cases Record.front d.width bytes with
  | event r size =>
    dsimp only
    split <;> simp
  | _ => simp

theorem Live.next_endOfStream_iff :
    (d.next bytes).1 = .error .endOfStream ↔ ∃ rest, bytes = 0x00 :: rest := by
  have hfinish : Record.front d.width bytes = .finish ↔ ∃ rest, bytes = 0x00 :: rest :=
    Record.front_eq_finish_iff
  rw [← hfinish, h.next_eq]
  cases Record.front d.width bytes with
  | event r size =>
    dsimp only
    split <;> simp
  | _ => simp

theorem Live.next_unknownTag_iff {tag : UInt8} :
    (d.next bytes).1 = .error (.corrupted (.unknownTag tag)) ↔
      ∃ rest, bytes = tag :: rest ∧ tag ≠ 0x00 ∧ tag ≠ 0x01 := by
  have hunknown : Record.front d.width bytes = .unknown tag ↔
      ∃ rest, bytes = tag :: rest ∧ tag ≠ 0x00 ∧ tag ≠ 0x01 := Record.front_eq_unknown_iff
  rw [← hunknown, h.next_eq]
  cases Record.front d.width bytes with
  | event r size =>
    dsimp only
    split <;> simp
  | _ => simp

/-- No other corruption is reported. -/
theorem Live.exists_unknownTag {fault : Corruption}
    (hnext : (d.next bytes).1 = .error (.corrupted fault)) : ∃ tag, fault = .unknownTag tag := by
  rw [h.next_eq] at hnext
  cases hfront : Record.front d.width bytes with
  | event r size =>
    rw [hfront] at hnext
    dsimp only at hnext
    split at hnext <;> cases hnext
  | unknown tag =>
    rw [hfront] at hnext
    cases hnext
    exact ⟨tag, rfl⟩
  | finish | incomplete =>
    rw [hfront] at hnext
    cases hnext

theorem Live.next_corrupted_iff :
    (∃ fault, (d.next bytes).1 = .error (.corrupted fault)) ↔
      ∃ tag rest, bytes = tag :: rest ∧ tag ≠ 0x00 ∧ tag ≠ 0x01 := by
  constructor
  · rintro ⟨fault, hnext⟩
    obtain ⟨tag, rfl⟩ := h.exists_unknownTag hnext
    exact ⟨tag, h.next_unknownTag_iff.1 hnext⟩
  · rintro ⟨tag, hbytes⟩
    exact ⟨_, h.next_unknownTag_iff.2 hbytes⟩

end

/-- **What stands at the front of some bytes.** -/
theorem next_classified (h : d.Live) (bytes : Bytes) :
    ((d.next bytes).1 = .error .incomplete ↔ Record.Cut d.width bytes) ∧
    ((d.next bytes).1 = .error .endOfStream ↔ ∃ rest, bytes = 0x00 :: rest) ∧
    ((∃ fault, (d.next bytes).1 = .error (.corrupted fault)) ↔
      ∃ tag rest, bytes = tag :: rest ∧ tag ≠ 0x00 ∧ tag ≠ 0x01) ∧
    (Record.Cut d.width bytes ∨ (∃ rest, bytes = 0x00 :: rest) ∨
      (∃ tag rest, bytes = tag :: rest ∧ tag ≠ 0x00 ∧ tag ≠ 0x01) ∨
      ∃ record rest, bytes = record ++ rest ∧ Record.Framed d.width record) ∧
    (∀ record rest, bytes = record ++ rest → Record.Framed d.width record →
      (∀ record' rest', bytes = record' ++ rest' → Record.Framed d.width record' →
        record' = record) ∧
      ((∃ event, (d.next bytes).1 = .ok (event, record.length)) ∨
        ∃ fault, (d.next bytes).1 = .error (.decode fault))) ∧
    ((d.next bytes).1 ≠ .error .incomplete →
      ∀ more, d.next (bytes ++ more) = d.next bytes) := by
  refine ⟨h.next_incomplete_iff, h.next_endOfStream_iff, h.next_corrupted_iff, ?_, ?_, next_append⟩
  · cases hfront : Record.front d.width bytes with
    | incomplete => exact .inl (Record.front_eq_incomplete_iff_cut.1 hfront)
    | finish => exact .inr (.inl (Record.front_eq_finish_iff.1 hfront))
    | unknown tag => exact .inr (.inr (.inl ⟨tag, Record.front_eq_unknown_iff.1 hfront⟩))
    | event r size =>
      obtain ⟨record, rest, hrecord, hbytes, -⟩ := Record.front_eq_event_iff.1 hfront
      exact .inr (.inr (.inr ⟨record, rest, hbytes, Record.framed_iff.2 ⟨r, hrecord⟩⟩))
  · rintro record rest rfl hframed
    refine ⟨fun record' rest' heq hframed' => ?_, h.next_of_framed hframed rest⟩
    exact hframed'.unique hframed heq.symm

/-- The greatest length is a part of a record, however long that record is. -/
theorem next_classified_greatest_length :
    (ofPreamble ⟨.eightByte, ⟨"", "", ""⟩, 0⟩).Live ∧
      Record.Cut .eightByte [0x01, 0xFF, 0xFF, 0xFF, 0xFF] := by
  have hlive : (ofPreamble ⟨.eightByte, ⟨"", "", ""⟩, 0⟩).Live := ⟨rfl, rfl⟩
  exact ⟨hlive, (next_classified hlive [0x01, 0xFF, 0xFF, 0xFF, 0xFF]).1.1 (by decide)⟩

end Deserializer

end LogCodec
