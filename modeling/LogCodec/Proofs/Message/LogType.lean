import LogCodec.Message.LogType

/-! # Reading log types

    A log type is read item by item, and what was read does not depend on what
    follows: escaped text gives its bytes as literals, and a placeholder byte
    gives its placeholder. -/

namespace LogCodec

theorem Placeholder.ofByte?_toByte (kind : Placeholder) : ofByte? kind.toByte = some kind := by
  cases kind <;> rfl

namespace LogType

/-- A byte other than the escape byte is an item by itself. -/
theorem items_cons {b : UInt8} (h : b ≠ escapeByte) (rest : Bytes) :
    items (b :: rest) = .ofByte b :: items rest := by
  cases rest with
  | nil => simp [items, h]
  | cons c rest => rw [items, if_neg h]

/-- The byte after an escape byte is literal. -/
theorem items_escape (b : UInt8) (rest : Bytes) :
    items (escapeByte :: b :: rest) = .literal b :: items rest := by
  rw [items, if_pos rfl]

theorem items_placeholder (kind : Placeholder) (rest : Bytes) :
    items (kind.toByte :: rest) = .placeholder kind :: items rest := by
  rw [items_cons (by cases kind <;> decide), Item.ofByte, Placeholder.ofByte?_toByte]

theorem isReserved_of_ofByte? {b : UInt8} {kind : Placeholder}
    (h : Placeholder.ofByte? b = some kind) : isReserved b = true := by
  unfold Placeholder.ofByte? at h
  split at h
  · decide
  · decide
  · decide
  · cases h

/-- A byte that needs no escape is literal. -/
theorem ofByte_of_not_needsEscape {b : UInt8} (h : needsEscape b = false) :
    Item.ofByte b = .literal b := by
  simp only [needsEscape, Bool.or_eq_false_iff] at h
  unfold Item.ofByte
  cases hk : Placeholder.ofByte? b with
  | some kind => simp [isReserved_of_ofByte? hk] at h
  | none => simp [h.2]

/-- Escaped text is read as its bytes, whatever follows. -/
theorem items_escape_append (text rest : Bytes) :
    items (escape text ++ rest) = text.map .literal ++ items rest := by
  induction text with
  | nil => rfl
  | cons b text ih =>
    have hcons : escape (b :: text) ++ rest =
        (if needsEscape b then [escapeByte, b] else [b]) ++ (escape text ++ rest) := by
      rw [escape, List.flatMap_cons, List.append_assoc]
      rfl
    rw [hcons, List.map_cons, List.cons_append, ← ih]
    by_cases hb : needsEscape b = true
    · rw [if_pos hb]
      exact items_escape b _
    · -- a byte without an escape is neither the escape byte nor a placeholder
      have hne : b ≠ escapeByte := by
        rintro rfl
        exact hb (by decide)
      rw [if_neg hb, List.singleton_append, items_cons hne,
        ofByte_of_not_needsEscape (Bool.eq_false_iff.2 hb)]

end LogType

end LogCodec
