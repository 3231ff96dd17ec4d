import LogCodec.Proofs.Message.RoundTrip

/-! # Encoded messages are not much longer than messages

    No run is empty, so a message has no more runs than bytes, and no field of
    its encoded form has more than two entries for each byte. -/

namespace LogCodec

/-! ### Runs -/

namespace Run

/-- A byte in front is a run by itself, or the first byte of the first run. -/
theorem map_bytes_push (b : UInt8) (runs : List Run) :
    (push b runs).map bytes = [b] :: runs.map bytes ∨
      ∃ text texts, runs.map bytes = text :: texts ∧
        (push b runs).map bytes = (b :: text) :: texts := by
  cases runs with
  | nil =>
    left
    rw [push]
    split <;> rfl
  | cons run rest =>
    cases run <;> rw [push] <;> split
    · exact .inr ⟨_, _, rfl, rfl⟩
    · exact .inl rfl
    · exact .inl rfl
    · exact .inr ⟨_, _, rfl, rfl⟩

theorem bytes_ne_nil_of_mem_ofMessage (message : Bytes) :
    ∀ run ∈ ofMessage message, run.bytes ≠ [] := by
  rw [← List.forall_mem_map (P := fun text => text ≠ [])]
  induction message with
  | nil => exact fun _ h => absurd h List.not_mem_nil
  | cons b rest ih =>
    rw [ofMessage, List.foldr_cons, ← ofMessage]
    intro text htext
    -- in both cases only the first run is not one of those before
    rcases map_bytes_push b (ofMessage rest) with hpush | ⟨first, others, hruns, hpush⟩
    · rw [hpush] at htext
      rcases List.mem_cons.1 htext with rfl | htext
      · exact List.cons_ne_nil _ _
      · exact ih text htext
    · rw [hpush] at htext
      rcases List.mem_cons.1 htext with rfl | htext
      · exact List.cons_ne_nil _ _
      · exact ih text (by rw [hruns]; exact List.mem_cons_of_mem _ htext)

/-- A message has no more runs than bytes. -/
theorem length_ofMessage_le (message : Bytes) : (ofMessage message).length ≤ message.length := by
  have hle (runs : List Run) (h : ∀ run ∈ runs, run.bytes ≠ []) :
      runs.length ≤ (runs.flatMap bytes).length := by
    induction runs with
    | nil => exact Nat.le_refl 0
    | cons run rest ih =>
      have hpos := List.length_pos_iff.2 (h run (List.mem_cons_self ..))
      have hrest := ih fun run hmem => h run (List.mem_cons_of_mem _ hmem)
      rw [List.flatMap_cons, List.length_append, List.length_cons]
      omega
  have := hle _ (bytes_ne_nil_of_mem_ofMessage message)
  rwa [flatMap_bytes_ofMessage] at this

end Run

/-! ### Log types -/

theorem LogType.length_escape_le (text : Bytes) : (escape text).length ≤ 2 * text.length := by
  induction text with
  | nil => exact Nat.le_refl 0
  | cons b text ih =>
    have hb : (if needsEscape b then [escapeByte, b] else [b]).length ≤ 2 := by
      split <;> simp
    have hcons : escape (b :: text) =
        (if needsEscape b then [escapeByte, b] else [b]) ++ escape text := List.flatMap_cons ..
    rw [hcons, List.length_append, List.length_cons]
    omega

variable {w : Width}

theorem Part.length_logType_ofRun_le {run : Run} (h : run.bytes ≠ []) :
    (Part.ofRun w run).logType.length ≤ 2 * run.bytes.length := by
  have hpos := List.length_pos_iff.2 h
  unfold Part.ofRun Part.ofToken
  -- a variable is one byte in the log type, and text at most doubles
  split
  · split
    · simp only [Part.logType, List.length_singleton]
      omega
    · split <;> simp only [Part.logType, List.length_singleton] <;> omega
  · exact LogType.length_escape_le run.bytes

namespace Encoded

theorem length_logType_le (runs : List Run) (h : ∀ run ∈ runs, run.bytes ≠ []) :
    ((runs.map (Part.ofRun w)).flatMap Part.logType).length ≤
      2 * (runs.flatMap Run.bytes).length := by
  induction runs with
  | nil => exact Nat.le_refl 0
  | cons run rest ih =>
    have hrun := Part.length_logType_ofRun_le (w := w) (h run (List.mem_cons_self ..))
    have hrest := ih fun run hmem => h run (List.mem_cons_of_mem _ hmem)
    rw [List.map_cons, List.flatMap_cons, List.flatMap_cons, List.length_append,
      List.length_append]
    omega

/-- The sizes of the fields of an encoded message. -/
theorem length_of_ofMessage {message : Bytes} {e : Encoded w} (h : ofMessage w message = .ok e) :
    e.logType.length ≤ 2 * message.length ∧ e.inline.length ≤ message.length ∧
      e.dictionary.length ≤ message.length ∧ e.ends.length ≤ message.length := by
  obtain ⟨-, rfl⟩ := ofParts_eq_ok_iff.1 h
  have hruns := Run.length_ofMessage_le message
  have hlogType := length_logType_le (w := w) _ (Run.bytes_ne_nil_of_mem_ofMessage message)
  have hdictionary := length_entries_le (w := w) (Run.ofMessage message)
  rw [Run.flatMap_bytes_ofMessage] at hlogType hdictionary
  have hparts : ((Run.ofMessage message).map (Part.ofRun w)).length ≤ message.length := by
    rwa [List.length_map]
  refine ⟨hlogType, (List.length_filterMap_le ..).trans hparts, hdictionary, ?_⟩
  show ((endsFrom 0 _).map _).length ≤ _
  rw [List.length_map, length_endsFrom]
  exact (List.length_filterMap_le ..).trans hparts

end Encoded

end LogCodec
