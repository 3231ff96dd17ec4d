import LogCodec.Proofs.Message.Tokens
import LogCodec.Proofs.Stream.RoundTrip

/-! # The fields of an encoded message agree

    Encoding fills four fields side by side, and only their order ties them together.

    * `Encoded.Sound`: what holds of the four fields of a message of this size.
    * `Record.Measured`: the length in front of each field of a record is read back as the
      length that the field has.
    * `countP_items_parts`, `pairwise_endsFrom`: one more part is one more placeholder and
      one more variable of its kind, and one more end beyond those before.
    * `represented`: every message is encoded as fields that agree, and its record is
      measured. -/

namespace LogCodec

variable {w : Width}

/-! ### Lengths in a record -/

/-- The fields of the record stand behind each other, and four bytes in front of each are
    read back as its length, or as the number of its entries. -/
def Record.Measured (r : Record w) (bytes : Bytes) : Prop :=
  ∃ logTypeLength inlineCount dictionaryLength endCount : Bytes,
    bytes = eventTag :: (logTypeLength ++ r.encoded.logType ++
      (inlineCount ++ r.encoded.inline.flatMap Variable.toBytes) ++
      (dictionaryLength ++ r.encoded.dictionary) ++
      (endCount ++ r.encoded.ends.flatMap Variable.toBytes) ++ Word.ofInt64 r.time) ∧
    (logTypeLength.length = 4 ∧ Word.ofBytes logTypeLength = r.encoded.logType.length) ∧
    (inlineCount.length = 4 ∧ Word.ofBytes inlineCount = r.encoded.inline.length) ∧
    (dictionaryLength.length = 4 ∧ Word.ofBytes dictionaryLength = r.encoded.dictionary.length) ∧
    (endCount.length = 4 ∧ Word.ofBytes endCount = r.encoded.ends.length)

/-- A record whose lengths fit is measured. -/
theorem Record.exists_measured {r : Record w} (h : Fits r.encoded) :
    ∃ bytes, r.toBytes = .ok bytes ∧ r.Measured bytes := by
  have hexact {length : Nat} (hle : length ≤ Cursor.lengthMax) :
      (Word.toBytes Cursor.lengthSize length).length = 4 ∧
        Word.ofBytes (Word.toBytes Cursor.lengthSize length) = length :=
    ⟨Word.length_toBytes _ _, Word.ofBytes_toBytes_of_lt (Nat.lt_succ_of_le hle)⟩
  refine ⟨_, toBytes_eq_ok_iff.2 ⟨h, rfl⟩, _, _, _, _, ?_, hexact h.logType, hexact h.inline,
    hexact h.dictionary, hexact h.ends⟩
  simp only [fields, List.append_assoc]

/-! ### Placeholders and parts -/

/-- The placeholder that stands for the part. -/
def Part.placeholder? : Part w → Option Placeholder
  | text _ => none
  | integer _ => some .integer
  | float _ => some .float
  | dictionary _ => some .dictionary

namespace Encoded

/-- The placeholders of a log type are those of its parts: what is escaped counts for
    none. -/
theorem countP_items_parts {p : LogType.Item → Bool} (hp : ∀ b, p (.literal b) = false)
    (parts : List (Part w)) :
    (LogType.items (parts.flatMap Part.logType)).countP p =
      parts.countP fun part => part.placeholder?.any fun kind => p (.placeholder kind) := by
  induction parts with
  | nil => rfl
  | cons part rest ih =>
    rw [List.flatMap_cons, List.countP_cons, ← ih]
    cases part with
    | text bytes =>
      have hnone : (bytes.map LogType.Item.literal).countP p = 0 := by
        apply List.countP_eq_zero.2
        intro item hitem
        obtain ⟨b, -, rfl⟩ := List.mem_map.1 hitem
        simp [hp b]
      rw [Part.logType, LogType.items_escape_append, List.countP_append, hnone]
      simp [Part.placeholder?]
    | integer | float | dictionary =>
      rw [Part.logType, List.singleton_append, LogType.items_placeholder, List.countP_cons]
      rfl

/-- One placeholder for each variable. -/
theorem placeholderCounts_assemble (parts : List (Part w)) :
    (assemble parts).placeholderCounts =
      ((assemble parts).inline.length, (assemble parts).ends.length) := by
  have hinline : (assemble parts).inline.length = parts.countP fun part => part.inline?.isSome :=
    List.length_filterMap_eq_countP
  have hends : (assemble parts).ends.length = parts.countP fun part => part.token?.isSome := by
    rw [assemble, List.length_map, length_endsFrom, List.length_filterMap_eq_countP]
  rw [hinline, hends, placeholderCounts, List.count, assemble,
    countP_items_parts (fun _ => rfl), countP_items_parts (fun _ => rfl)]
  congr 1
  · apply List.countP_congr
    intro part _
    cases part <;> simp [Part.placeholder?, Part.inline?]
  · apply List.countP_congr
    intro part _
    cases part <;> simp [Part.placeholder?, Part.token?]

/-! ### Ends -/

/-- The ends of texts that are not empty grow. -/
theorem pairwise_endsFrom {texts : List Bytes} (h : ∀ text ∈ texts, text ≠ []) (start : Nat) :
    (∀ stop ∈ endsFrom start texts, start < stop) ∧ (endsFrom start texts).Pairwise (· < ·) := by
  induction texts generalizing start with
  | nil => exact ⟨by simp [endsFrom], .nil⟩
  | cons text rest ih =>
    have hpos := List.length_pos_iff.2 (h text (List.mem_cons_self ..))
    obtain ⟨hlater, hrest⟩ := ih (fun t ht => h t (List.mem_cons_of_mem _ ht))
      (start + text.length)
    refine ⟨?_, .cons hlater hrest⟩
    intro stop hstop
    rcases List.mem_cons.1 hstop with rfl | hstop
    · omega
    · have := hlater stop hstop
      omega

/-- The last text ends where all of them end. -/
theorem getLast?_endsFrom (start : Nat) (texts : List Bytes) :
    (endsFrom start texts).getLast? =
      if texts = [] then none else some (start + texts.flatten.length) := by
  induction texts generalizing start with
  | nil => rfl
  | cons text rest ih =>
    rw [endsFrom, List.getLast?_cons, ih, if_neg (List.cons_ne_nil _ _)]
    by_cases hrest : rest = []
    · simp [hrest]
    · simp [hrest, Nat.add_assoc]

section

variable {e : Encoded w} {texts : List Bytes}
  (hends : e.ends = (endsFrom 0 texts).map (BitVec.ofNat _))
  (hmax : ∀ stop ∈ endsFrom 0 texts, stop ≤ endMax)

include hends hmax

theorem pos_of_mem_ends (hne : ∀ text ∈ texts, text ≠ []) : ∀ stop ∈ e.ends, 0 < stop.toInt := by
  intro stop hstop
  rw [hends] at hstop
  obtain ⟨n, hn, rfl⟩ := List.mem_map.1 hstop
  rw [toInt_ofNat_end (hmax n hn)]
  exact Int.natCast_pos.2 ((pairwise_endsFrom hne 0).1 n hn)

theorem pairwise_ends (hne : ∀ text ∈ texts, text ≠ []) :
    e.ends.Pairwise fun a b => a.toInt < b.toInt := by
  rw [hends, List.pairwise_map]
  apply (pairwise_endsFrom hne 0).2.imp_of_mem
  intro a b ha hb hab
  rw [toInt_ofNat_end (hmax a ha), toInt_ofNat_end (hmax b hb)]
  exact Int.ofNat_lt.2 hab

theorem toInt_of_getLast?_ends {stop : Offset} (hstop : e.ends.getLast? = some stop) :
    stop.toInt = (texts.flatten.length : Int) := by
  rw [hends, List.getLast?_map, Option.map_eq_some_iff] at hstop
  obtain ⟨n, hn, rfl⟩ := hstop
  rw [toInt_ofNat_end (hmax n (List.mem_of_getLast? hn))]
  rw [getLast?_endsFrom] at hn
  obtain ⟨-, hn⟩ := Option.ite_none_left_eq_some.1 hn
  rw [← Option.some.inj hn, Nat.zero_add]

/-- The dictionary has a variable for each end, and no more. -/
theorem dictVar?_eq_getElem? (hdictionary : e.dictionary = texts.flatten) (index : Nat) :
    e.dictVar? index = texts[index]? := by
  by_cases hindex : index < texts.length
  · rw [dictVar?_of_flatten hends hmax hdictionary hindex, List.getElem?_eq_getElem hindex]
  · have hlength : e.ends.length = texts.length := by
      rw [hends, List.length_map, length_endsFrom]
    rw [dictVar?_eq, List.getElem?_eq_none (by omega), List.getElem?_eq_none (by omega)]
    rfl

end

/-! ### Fields that agree -/

/-- What holds of the fields of a message of this size. -/
structure Sound (size : Nat) (e : Encoded w) : Prop where
  /-- There are as many placeholders as variables, for inline variables and for those in
      the dictionary. -/
  counts : e.placeholderCounts = (e.inline.length, e.ends.length)
  positive : ∀ stop ∈ e.ends, 0 < stop.toInt
  increasing : e.ends.Pairwise fun a b => a.toInt < b.toInt
  /-- The last dictionary variable ends where the dictionary ends. -/
  last : ∀ stop, e.ends.getLast? = some stop → stop.toInt = e.dictionary.length
  empty : e.ends = [] ↔ e.dictionary = []
  /-- The dictionary is made of its variables.  There is one for each end, and none of them
      is empty or could have been stored inline. -/
  entries : ∃ entries : List Bytes, entries.length = e.ends.length ∧
    entries.flatten = e.dictionary ∧ (∀ index, e.dictVar? index = entries[index]?) ∧
    ∀ entry ∈ entries, entry ≠ [] ∧ Number.encodeInteger? w entry = none ∧
      Number.encodeFloat? w entry = none
  logType_le : e.logType.length ≤ 2 * size
  inline_le : e.inline.length ≤ size
  dictionary_le : e.dictionary.length ≤ size
  ends_le : e.ends.length ≤ size

/-- What is put into the dictionary is not empty, and is no number. -/
theorem of_mem_entries {message entry : Bytes} (h : entry ∈ entries w message) :
    entry ≠ [] ∧ Number.encodeInteger? w entry = none ∧ Number.encodeFloat? w entry = none := by
  obtain ⟨htoken, hnone⟩ := List.mem_filter.1 h
  rw [tokens_eq] at htoken
  obtain ⟨run, hrun, rfl⟩ := List.mem_map.1 htoken
  have hne := Run.bytes_ne_nil_of_mem_ofMessage message run (List.mem_filter.1 hrun).1
  obtain ⟨hinteger, hfloat⟩ := Option.or_eq_none_iff.1 (Option.isNone_iff_eq_none.1 hnone)
  exact ⟨hne, hinteger, hfloat⟩

/-- The fields of a message agree. -/
theorem sound_of_ofMessage {message : Bytes} {e : Encoded w} (h : ofMessage w message = .ok e) :
    e.Sound message.length := by
  obtain ⟨hlogType, hinline, hdictionary, hendsLength⟩ := length_of_ofMessage h
  obtain ⟨hmax, hassemble⟩ := ofParts_eq_ok_iff.1 h
  have hends : e.ends = (endsFrom 0 (entries w message)).map (BitVec.ofNat _) := by
    rw [← hassemble, entries_eq]
    rfl
  have hflatten : e.dictionary = (entries w message).flatten := by
    rw [← hassemble, entries_eq]
    rfl
  have hlength : (entries w message).length = e.ends.length := by
    rw [hends, List.length_map, length_endsFrom]
  have hne : ∀ entry ∈ entries w message, entry ≠ [] := fun _ hentry => (of_mem_entries hentry).1
  rw [← entries_eq] at hmax
  exact {
    counts := hassemble ▸ placeholderCounts_assemble _
    positive := pos_of_mem_ends hends hmax hne
    increasing := pairwise_ends hends hmax hne
    last := fun _ hstop => hflatten ▸ toInt_of_getLast?_ends hends hmax hstop
    empty := by
      rw [← List.length_eq_zero_iff, ← hlength, List.length_eq_zero_iff, hflatten,
        List.flatten_eq_nil_iff]
      refine ⟨fun hnil => by simp [hnil], fun hall => ?_⟩
      exact List.eq_nil_iff_forall_not_mem.2 fun entry hentry => hne entry hentry (hall entry hentry)
    entries := ⟨_, hlength, hflatten.symm, dictVar?_eq_getElem? hends hmax hflatten,
      fun _ => of_mem_entries⟩
    logType_le := hlogType
    inline_le := hinline
    dictionary_le := hdictionary
    ends_le := hendsLength }

/-- **Fields that agree.**  Every message whose length is a signed 32-bit number is encoded
    in both widths.  There are as many placeholders as variables.  The ends of the dictionary
    variables are positive and grow up to the end of the dictionary, and cut it into texts
    that are not empty and that could not have been stored inline.  No field is longer than a
    record can tell, so each length in the record of the message is the length of its
    field. -/
theorem represented (w : Width) {message : Bytes} (h : message.length ≤ 2 ^ 31 - 1) :
    ∃ e, ofMessage w message = .ok e ∧ e.Sound message.length ∧
      ∀ time, ∃ bytes, Record.toBytes ⟨e, time⟩ = .ok bytes ∧
        Record.Measured ⟨e, time⟩ bytes := by
  obtain ⟨e, he⟩ := exists_ofMessage w h
  refine ⟨e, he, sound_of_ofMessage he, ?_⟩
  intro time
  exact Record.exists_measured (Serializer.fits_of_ofMessage he h)

/-- An integer, two variables in the dictionary with a float between them, and a byte that
    must be escaped. -/
theorem represented_kinds :
    let message : Bytes := [0x2D, 0x37, 0x20, 0x61, 0x31, 0x20, 0x2E, 0x35, 0x20, 0x30, 0x37,
      0x20, 0x12]
    let e : Encoded .fourByte :=
      ⟨[0x11, 0x20, 0x12, 0x20, 0x13, 0x20, 0x12, 0x20, 0x5C, 0x12], [-7, 320],
        [0x61, 0x31, 0x30, 0x37], [2, 4]⟩
    message.length ≤ 2 ^ 31 - 1 ∧ ofMessage .fourByte message = .ok e ∧ e.Sound 13 ∧
      ∃ bytes, Record.toBytes ⟨e, 5⟩ = .ok bytes ∧ Record.Measured ⟨e, 5⟩ bytes := by
  intro message e
  have hlength : message.length ≤ 2 ^ 31 - 1 := by decide
  have hencoded : ofMessage .fourByte message = .ok e := by rfl
  obtain ⟨_, he, hsound, hrecord⟩ := represented .fourByte hlength
  obtain rfl := Except.ok.inj (hencoded.symm.trans he)
  exact ⟨hlength, hencoded, hsound, hrecord 5⟩

end Encoded

end LogCodec
