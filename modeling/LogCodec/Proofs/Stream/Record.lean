import LogCodec.Proofs.Stream.Cursor
import LogCodec.Stream.Record

/-! # Records are read as they were written

    - `takes_body?`: the fields of a record are read as that record, whatever
      follows them.
    - `front_toBytes_append`: so is the whole record at the front of some bytes.
    - `front_append`: what was made out at the front of some bytes stays the
      same when more bytes follow.
    - `front_eq_event_iff`, `front_eq_incomplete_iff`: nothing is made out as a
      record but what is written for it, and nothing as too few bytes but a part
      of what is written for some record. -/

namespace LogCodec.Record

variable {w : Width}

/-! ### The fields -/

/-- All lengths and counts of the record fit into their fields. -/
structure Fits (e : Encoded w) : Prop where
  logType : e.logType.length ≤ Cursor.lengthMax
  inline : e.inline.length ≤ Cursor.lengthMax
  dictionary : e.dictionary.length ≤ Cursor.lengthMax
  ends : e.ends.length ≤ Cursor.lengthMax

/-- The record without its tag, as it stands in a stream. -/
def fields (r : Record w) : Bytes :=
  (Word.toBytes Cursor.lengthSize r.encoded.logType.length ++ r.encoded.logType) ++
    ((Word.toBytes Cursor.lengthSize r.encoded.inline.length ++
        r.encoded.inline.flatMap Variable.toBytes) ++
      ((Word.toBytes Cursor.lengthSize r.encoded.dictionary.length ++ r.encoded.dictionary) ++
        ((Word.toBytes Cursor.lengthSize r.encoded.ends.length ++
            r.encoded.ends.flatMap Variable.toBytes) ++
          Word.ofInt64 r.time)))

theorem lengthField_eq_ok_iff {length : Nat} {bytes : Bytes} :
    lengthField length = .ok bytes ↔
      length ≤ Cursor.lengthMax ∧ Word.toBytes Cursor.lengthSize length = bytes := by
  unfold lengthField
  split
  · rename_i hfits
    exact ⟨fun h => ⟨hfits, Except.ok.inj h⟩, fun h => congrArg _ h.2⟩
  · rename_i hfits
    refine ⟨fun h => ?_, fun h => absurd h.1 hfits⟩
    cases h

/-- A record can be written when its lengths fit. -/
theorem toBytes_eq_ok_iff {r : Record w} {bytes : Bytes} :
    r.toBytes = .ok bytes ↔ Fits r.encoded ∧ eventTag :: r.fields = bytes := by
  constructor
  · intro h
    obtain ⟨_, h₁, h⟩ := Result.bind_eq_ok_iff.1 h
    obtain ⟨_, h₂, h⟩ := Result.bind_eq_ok_iff.1 h
    obtain ⟨_, h₃, h⟩ := Result.bind_eq_ok_iff.1 h
    obtain ⟨_, h₄, h⟩ := Result.bind_eq_ok_iff.1 h
    obtain ⟨hf₁, rfl⟩ := lengthField_eq_ok_iff.1 h₁
    obtain ⟨hf₂, rfl⟩ := lengthField_eq_ok_iff.1 h₂
    obtain ⟨hf₃, rfl⟩ := lengthField_eq_ok_iff.1 h₃
    obtain ⟨hf₄, rfl⟩ := lengthField_eq_ok_iff.1 h₄
    refine ⟨⟨hf₁, hf₂, hf₃, hf₄⟩, ?_⟩
    cases h
    simp [fields]
  · rintro ⟨⟨hf₁, hf₂, hf₃, hf₄⟩, rfl⟩
    refine Result.bind_eq_ok_iff.2 ⟨_, lengthField_eq_ok_iff.2 ⟨hf₁, rfl⟩, ?_⟩
    refine Result.bind_eq_ok_iff.2 ⟨_, lengthField_eq_ok_iff.2 ⟨hf₂, rfl⟩, ?_⟩
    refine Result.bind_eq_ok_iff.2 ⟨_, lengthField_eq_ok_iff.2 ⟨hf₃, rfl⟩, ?_⟩
    refine Result.bind_eq_ok_iff.2 ⟨_, lengthField_eq_ok_iff.2 ⟨hf₄, rfl⟩, ?_⟩
    simp [fields, pure, Except.pure]

/-- The fields of a record are read as that record. -/
theorem takes_body? {r : Record w} (h : Fits r.encoded) : Cursor.Takes (body? w) r.fields r := by
  have htakes : Cursor.Takes (body? w) _ r :=
    (Cursor.takes_counted? h.logType).bind <|
      (Cursor.takes_variables? [] h.inline).bind <|
      (Cursor.takes_counted? h.dictionary).bind <|
      (Cursor.takes_variables? [] h.ends).bind <|
      (Cursor.takes_int64? r.time).bind (Cursor.takes_pure r)
  rwa [List.append_nil] at htakes

theorem framed_body? (w : Width) : Cursor.Framed (body? w) :=
  Cursor.framed_counted?.bind fun _ =>
    (Cursor.framed_variables? w []).bind fun _ =>
    Cursor.framed_counted?.bind fun _ =>
    (Cursor.framed_variables? .fourByte []).bind fun _ =>
    Cursor.framed_int64?.bind fun _ => Cursor.framed_pure _

/-- A record that was read has its own fields in front of what is left. -/
theorem passes_body? {r : Record w} {c c' : Cursor} (h : body? w c = some (r, c')) :
    Fits r.encoded ∧ c.Passes r.fields c' := by
  simp only [body?, Option.bind_eq_bind, Option.bind_eq_some_iff, Option.pure_def,
    Option.some.injEq, Prod.exists, Prod.mk.injEq] at h
  obtain ⟨_, _, h₁, _, _, h₂, _, _, h₃, _, _, h₄, _, _, h₅, rfl, rfl⟩ := h
  obtain ⟨hlogType, hf₁⟩ := Cursor.passes_counted? h₁
  obtain ⟨hinline, hf₂⟩ := Cursor.passes_variables? h₂
  obtain ⟨hdictionary, hf₃⟩ := Cursor.passes_counted? h₃
  obtain ⟨hends, hf₄⟩ := Cursor.passes_variables? h₄
  have htime := Cursor.passes_int64? h₅
  exact ⟨⟨hf₁, hf₂, hf₃, hf₄⟩,
    hlogType.trans (hinline.trans (hdictionary.trans (hends.trans htime)))⟩

/-! ### The front of some bytes -/

/-- A record that was written is read, whatever follows it. -/
theorem front_toBytes_append {r : Record w} {bytes : Bytes} (h : r.toBytes = .ok bytes)
    (rest : Bytes) : front w (bytes ++ rest) = .event r bytes.length := by
  obtain ⟨hfits, rfl⟩ := toBytes_eq_ok_iff.1 h
  rw [List.cons_append, front, if_pos rfl, takes_body? hfits rest 1, List.length_cons, Nat.add_comm]

/-- **One form for each record.**  Some bytes start with a record exactly when
    they start with what is written for it. -/
theorem front_eq_event_iff {r : Record w} {bytes : Bytes} {size : Nat} :
    front w bytes = .event r size ↔ ∃ record rest, r.toBytes = .ok record ∧
      bytes = record ++ rest ∧ size = record.length := by
  constructor
  · intro h
    unfold front at h
    split at h
    · cases h
    rename_i tag rest
    split at h
    · rename_i htag
      split at h
      · rename_i record c hbody
        cases h
        obtain ⟨hfits, hrest, hpos⟩ := passes_body? hbody
        refine ⟨_, c.rest, toBytes_eq_ok_iff.2 ⟨hfits, rfl⟩, ?_, ?_⟩
        · rw [htag, List.cons_append]
          exact congrArg _ hrest
        · rw [hpos, List.length_cons, Nat.add_comm]
      · cases h
    · split at h <;> cases h
  · rintro ⟨record, rest, hrecord, rfl, rfl⟩
    exact front_toBytes_append hrecord rest

theorem front_eq_finish_iff {bytes : Bytes} :
    front w bytes = .finish ↔ ∃ rest, bytes = endTag :: rest := by
  constructor
  · intro h
    unfold front at h
    split at h
    · cases h
    rename_i tag rest
    split at h
    · split at h <;> cases h
    split at h
    · rename_i htag
      exact ⟨rest, by rw [htag]⟩
    · cases h
  · rintro ⟨rest, rfl⟩
    rfl

/-- More bytes do not change what was made out. -/
theorem front_append {bytes : Bytes} (h : front w bytes ≠ .incomplete) (more : Bytes) :
    front w (bytes ++ more) = front w bytes := by
  cases bytes with
  | nil => exact absurd rfl h
  | cons tag rest =>
    rw [List.cons_append, front, front]
    rw [front] at h
    by_cases htag : tag = eventTag
    · rw [if_pos htag] at h ⊢
      rw [if_pos htag]
      cases hbody : body? w ⟨rest, 1⟩ with
      | none => simp [hbody] at h
      | some found =>
        obtain ⟨r, c⟩ := found
        have := (framed_body? w).exact.extend hbody more
        simp only [Cursor.extend] at this
        rw [this]
    · rw [if_neg htag, if_neg htag]

/-- **Incomplete means cut short.**  There are too few bytes exactly when some
    record continues them. -/
theorem front_eq_incomplete_iff {bytes : Bytes} :
    front w bytes = .incomplete ↔
      ∃ (r : Record w) (more : Bytes), more ≠ [] ∧ r.toBytes = .ok (bytes ++ more) := by
  constructor
  · intro h
    cases bytes with
    | nil =>
      have hfits : Fits (⟨[], [], [], []⟩ : Encoded w) := by constructor <;> exact Nat.zero_le _
      exact ⟨_, eventTag :: fields ⟨⟨[], [], [], []⟩, 0⟩, List.cons_ne_nil _ _,
        toBytes_eq_ok_iff.2 ⟨hfits, rfl⟩⟩
    | cons tag rest =>
      rw [front] at h
      split at h
      · rename_i htag
        cases hbody : body? w ⟨rest, 1⟩ with
        | some found => simp [hbody] at h
        | none =>
          obtain ⟨more, r, hmore, htakes⟩ := (framed_body? w).completable _ hbody
          obtain ⟨hfits, hrest, -⟩ := passes_body? (htakes [] 1)
          simp only [List.append_nil] at hrest
          refine ⟨r, more, hmore, toBytes_eq_ok_iff.2 ⟨hfits, ?_⟩⟩
          rw [htag, List.cons_append, hrest]
      · split at h <;> cases h
  · rintro ⟨r, more, hmore, hrecord⟩
    by_contra hne
    have hwhole := front_toBytes_append hrecord []
    rw [List.append_nil, front_append hne more] at hwhole
    have hsize := (size_of_front_event hwhole).2
    have hpos := List.length_pos_iff.2 hmore
    rw [List.length_append] at hsize
    omega

end LogCodec.Record
