import LogCodec.Message.Encoded
import LogCodec.Stream.Cursor

/-! # Records

    After the preamble a stream consists of records, each with a tag in front.
    An event record holds an encoded message and a time:

    - the log type, after its length,
    - the inline variables, after their count,
    - the dictionary, after its length,
    - the ends of the dictionary variables, after their count,
    - the time: since the epoch, or since the event before. -/

namespace LogCodec

/-- An event as it is stored. -/
structure Record (w : Width) where
  encoded : Encoded w
  /-- Milliseconds, since the epoch or since the event before. -/
  time : Int64

namespace Record

variable {w : Width}

/-- The tag of an event. -/
def eventTag : UInt8 := 0x01

/-- The tag of the end of a stream. -/
def endTag : UInt8 := 0x00

/-! ### Writing -/

/-- A length or count field. -/
def lengthField (length : Nat) : Result Bytes :=
  if length ≤ Cursor.lengthMax then .ok (Word.toBytes Cursor.lengthSize length)
  else .error (.encode (.lengthTooLong length))

/-- The record with its tag, as it stands in a stream. -/
def toBytes (r : Record w) : Result Bytes := do
  let e := r.encoded
  let logTypeLength ← lengthField e.logType.length
  let inlineCount ← lengthField e.inline.length
  let dictionaryLength ← lengthField e.dictionary.length
  let endCount ← lengthField e.ends.length
  return eventTag
    :: logTypeLength ++ e.logType
    ++ inlineCount ++ e.inline.flatMap Variable.toBytes
    ++ dictionaryLength ++ e.dictionary
    ++ endCount ++ e.ends.flatMap Variable.toBytes
    ++ Word.ofInt64 r.time

/-! ### Reading -/

/-- An event record whose tag was read. -/
def body? (w : Width) (c : Cursor) : Option (Record w × Cursor) := do
  let (logType, c) ← c.counted?
  let (inline, c) ← c.variables? w []
  let (dictionary, c) ← c.counted?
  let (ends, c) ← c.variables? .fourByte []
  let (time, c) ← c.int64?
  return (⟨⟨logType, inline, dictionary, ends⟩, time⟩, c)

/-- What stands at the front of some bytes. -/
inductive Front (w : Width) where
  /-- A complete event record of `size` bytes. -/
  | event (record : Record w) (size : Nat)
  /-- The end of the stream. -/
  | finish
  /-- A byte that is no tag. -/
  | unknown (tag : UInt8)
  /-- Too few bytes. -/
  | incomplete

/-- Looks at the front of some bytes. -/
def front (w : Width) : Bytes → Front w
  | [] => .incomplete
  | tag :: rest =>
    if tag = eventTag then
      match body? w ⟨rest, 1⟩ with
      | some (record, c) => .event record c.pos
      | none => .incomplete
    else if tag = endTag then .finish
    else .unknown tag

/-! ### Size of a complete record -/

theorem reaches_of_body? {w : Width} {c c' : Cursor} {record : Record w}
    (h : body? w c = some (record, c')) : c.Reaches c' := by
  simp only [body?, Option.bind_eq_bind, Option.bind_eq_some_iff, Option.pure_def,
    Option.some.injEq, Prod.exists, Prod.mk.injEq] at h
  obtain ⟨_, _, h₁, _, _, h₂, _, _, h₃, _, _, h₄, _, _, h₅, _, rfl⟩ := h
  exact (Cursor.reaches_of_counted? h₁).trans <| (Cursor.reaches_of_variables? h₂).trans <|
    (Cursor.reaches_of_counted? h₃).trans <| (Cursor.reaches_of_variables? h₄).trans <|
    Cursor.reaches_of_int64? h₅

/-- A complete record has at least its tag, and lies within the bytes. -/
theorem size_of_front_event {w : Width} {bytes : Bytes} {record : Record w} {size : Nat}
    (h : front w bytes = .event record size) : 0 < size ∧ size ≤ bytes.length := by
  unfold front at h
  split at h
  · cases h
  · rename_i tag rest
    split at h
    · split at h
      · rename_i r c hb
        cases h
        obtain ⟨h₁, h₂⟩ := reaches_of_body? hb
        simp only [List.length_cons] at h₁ h₂ ⊢
        omega
      · cases h
    · split at h <;> cases h

end Record

end LogCodec
