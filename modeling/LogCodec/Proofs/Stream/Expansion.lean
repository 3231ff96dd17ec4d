import LogCodec.Proofs.Message.Expansion
import LogCodec.Proofs.Stream.Scan

/-! # No message outgrows its record

    * `Deserializer.record_of_next`: the record of an event that is returned.
    * `Deserializer.Bounded`: how long the message of a record can be, and where its bytes
      are from.
    * `Deserializer.bounded_next`: so it is for every event, whatever the bytes are. -/

namespace LogCodec

open LogType (itemAt?)

variable {w : Width}

namespace Deserializer

/-- How long the message of a record can be, and where its bytes are from. -/
structure Bounded (e : Encoded w) (message : Bytes) (size : Nat) : Prop where
  /-- The tag, the four counts and the time. -/
  least : 25 ≤ size
  total : message.length ≤ 3 * (size - 25)
  fields : message.length ≤ e.logType.length + 20 * e.inline.length + e.dictionary.length
  /-- Each position of the log type gives its piece. -/
  spells : e.Spells message
  /-- The piece of a dictionary placeholder is copied from the dictionary. -/
  copied : ∀ i < e.logType.length, itemAt? e.logType i = some (.placeholder .dictionary) →
    ∀ piece, e.PieceAt i piece ↔ piece = (e.copiedAt i).filterMap (e.dictionary[·]?)
  /-- No other piece depends on the dictionary. -/
  others : ∀ i, itemAt? e.logType i ≠ some (.placeholder .dictionary) → e.copiedAt i = [] ∧
    ∀ dictionary piece,
      ({ e with dictionary := dictionary } : Encoded w).PieceAt i piece ↔ e.PieceAt i piece
  /-- No place in the dictionary is copied twice. -/
  once : e.copied.Nodup
  within : ∀ place ∈ e.copied, place < e.dictionary.length

/-- The bytes of a record are enough for its message. -/
theorem bounded_of_render {r : Record w} {message record : Bytes}
    (hr : r.toBytes = .ok record) (hrender : r.encoded.render = ⟨message, none⟩) :
    Bounded r.encoded message record.length := by
  have hwritten := Encoded.written_of_render hrender
  have hlength := hwritten.length_le
  have hsize := Record.length_of_toBytes hr
  rw [Record.size] at hsize
  refine ⟨by omega, ?_, ?_, hwritten.spells, ?_, ?_, ?_, fun _ => hwritten.lt_of_mem_copied⟩
  · -- three bytes for each byte that the variable has
    have hthree : w.textMax * r.encoded.inline.length ≤ 3 * (w.size * r.encoded.inline.length) := by
      rw [← Nat.mul_assoc]
      exact Nat.mul_le_mul_right _ (by cases w <;> decide)
    omega
  · have htwenty : w.textMax * r.encoded.inline.length ≤ 20 * r.encoded.inline.length :=
      Nat.mul_le_mul_right _ (by cases w <;> decide)
    omega
  · intro i hi hitem
    obtain ⟨piece, hpiece⟩ := hwritten.exists_pieceAt hi
    obtain rfl := Encoded.eq_of_pieceAt_dictionary hitem hpiece
    intro piece
    exact ⟨Encoded.eq_of_pieceAt_dictionary hitem, fun hsame => hsame ▸ hpiece⟩
  · intro i hitem
    exact ⟨Encoded.copiedAt_of_ne hitem,
      fun dictionary _ => Encoded.pieceAt_with_dictionary_iff hitem dictionary⟩
  · rw [hwritten.copied_eq]
    exact List.nodup_range

/-- The record of an event that is returned. -/
theorem record_of_next {d d' : Deserializer} {bytes : Bytes} {event : Event} {size : Nat}
    (h : d.next bytes = (.ok (event, size), d')) :
    ∃ r : Record d.width, r.encoded.render = ⟨event.message, none⟩ ∧
      event.timestamp = d.width.eventTime d.running r.time ∧
      ∃ record rest, r.toBytes = .ok record ∧ bytes = record ++ rest ∧ size = record.length := by
  unfold next at h
  split at h
  · cases h
  · rename_i hstep
    obtain ⟨r, rfl, htime, hrecord⟩ := record_of_step_event hstep
    split at h
    · cases h
    · rename_i hrender
      cases h
      exact ⟨r, hrender, htime, hrecord⟩

/-- **No message outgrows its record.**  Whatever the bytes are: an event that is returned
    used at least 25 of them, and its message is at most three times as long as what it
    used beyond these.  What is copied from the dictionary is copied once. -/
theorem bounded_next {d d' : Deserializer} {bytes : Bytes} {event : Event} {size : Nat}
    (h : d.next bytes = (.ok (event, size), d')) :
    ∃ (r : Record d.width) (record rest : Bytes),
      r.toBytes = .ok record ∧ bytes = record ++ rest ∧ size = record.length ∧
      r.encoded.render = ⟨event.message, none⟩ ∧ Bounded r.encoded event.message size := by
  obtain ⟨r, hrender, -, record, rest, hr, hbytes, rfl⟩ := record_of_next h
  exact ⟨r, record, rest, hr, hbytes, rfl, hrender, bounded_of_render hr hrender⟩

/-- The least integer between two dictionary variables. -/
theorem bounded_next_least :
    let d := ofPreamble ⟨.fourByte, ⟨"", "", ""⟩, 5⟩
    let bytes : Bytes := [0x01, 0, 0, 0, 4, 0x12, 0x20, 0x11, 0x12, 0, 0, 0, 1, 0x80, 0, 0, 0,
      0, 0, 0, 3, 0x61, 0x62, 0x63, 0, 0, 0, 2, 0, 0, 0, 1, 0, 0, 0, 3,
      0, 0, 0, 0, 0, 0, 0, 9, 0x00]
    let message : Bytes := [0x61, 0x20, 0x2D, 0x32, 0x31, 0x34, 0x37, 0x34, 0x38, 0x33, 0x36,
      0x34, 0x38, 0x62, 0x63]
    d.next bytes = (.ok (⟨message, 14⟩, 44), (d.next bytes).2) ∧
      ∃ (r : Record d.width) (record rest : Bytes),
        r.toBytes = .ok record ∧ bytes = record ++ rest ∧ 44 = record.length ∧
        r.encoded.render = ⟨message, none⟩ ∧ Bounded r.encoded message 44 := by
  intro d bytes message
  have hresult : (d.next bytes).1 = .ok (⟨message, 14⟩, 44) := by decide +kernel
  have hnext : d.next bytes = (.ok (⟨message, 14⟩, 44), (d.next bytes).2) := by rw [← hresult]
  exact ⟨hnext, bounded_next hnext⟩

end Deserializer

end LogCodec
