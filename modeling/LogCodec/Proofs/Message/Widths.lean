import LogCodec.Proofs.Message.Float
import LogCodec.Proofs.Message.Integer
import LogCodec.Proofs.Message.Representation

/-! # The two widths

    Which words of a message are variables does not depend on the width.  What depends on it
    is only whether a variable is stored inline, and a number that is stored inline in four
    bytes is stored inline in eight bytes too.

    * `Part.Widens`: a part in four bytes and the same part in eight bytes.
    * `Encoded.pieceAt_of_renders`: what stands in the log type where a part begins.
    * `Encoded.WidenedAt`: what a position has in common in both widths.
    * `Encoded.widened`: this holds of all positions of all messages. -/

namespace LogCodec

open LogType (Item itemAt? isEscaped rank items)
open Number (FloatFields encodeInteger? encodeFloat?)

/-! ### Numbers -/

namespace Number

/-- No integer is written with a point. -/
theorem not_mem_of_integerText {text : Bytes} {i : Int} (h : IntegerText text i) :
    0x2E ∉ text := by
  have hdigit : ¬ Ascii.isDigit 0x2E = true := by decide
  intro hpoint
  cases h with
  | zero => exact absurd hpoint (by decide)
  | positive hdigits => exact hdigit (hdigits _ hpoint)
  | negative hdigits =>
    rcases List.mem_cons.1 hpoint with hminus | hpoint
    · exact absurd hminus (by decide)
    · exact hdigit (hdigits _ hpoint)

variable {token : Bytes} {u : Variable .fourByte}

/-- An integer of four bytes has eight bytes too. -/
theorem exists_wide_integer (h : encodeInteger? .fourByte token = some u) :
    ∃ v : Variable .eightByte, encodeInteger? .eightByte token = some v ∧ v.toInt = u.toInt := by
  have htext := encodeInteger?_eq_some_iff.1 h
  have hlow : -2 ^ 31 ≤ u.toInt := u.le_toInt
  have hhigh : u.toInt < 2 ^ 31 := u.toInt_lt
  have hrange : ∃ v : Variable .eightByte, v.toInt = u.toInt := by
    apply Variable.exists_toInt_eq_iff.2
    show -2 ^ 63 ≤ u.toInt ∧ u.toInt < 2 ^ 63
    omega
  obtain ⟨v, hv⟩ := hrange
  refine ⟨v, encodeInteger?_eq_some_iff.2 ?_, hv⟩
  rw [hv]
  exact htext

/-- Fields that fit into four bytes fit into eight. -/
theorem FloatFields.Fits.wide {f : FloatFields} (h : f.Fits .fourByte) : f.Fits .eightByte := by
  obtain ⟨hcount, hdigits⟩ := h
  have hcount : f.digitCount ≤ 8 := hcount
  have hdigits : f.digits < 2 ^ 25 := hdigits
  constructor
  · show f.digitCount ≤ 16
    omega
  · show f.digits < 2 ^ 54
    omega

/-- A float of four bytes is no integer of eight bytes, but a float with the same fields. -/
theorem exists_wide_float (h : encodeFloat? .fourByte token = some u) :
    encodeInteger? .eightByte token = none ∧
      ∃ v : Variable .eightByte, encodeFloat? .eightByte token = some v ∧
        FloatFields.ofVariable v = FloatFields.ofVariable u := by
  obtain ⟨f, hf, hfits, rfl⟩ := encodeFloat?_eq_some_iff.1 h
  constructor
  · -- the text has a point
    obtain ⟨front, back, rfl, -⟩ := FloatFields.exists_of_ofText? hf
    apply Option.eq_none_iff_forall_ne_some.2
    intro v hv
    exact not_mem_of_integerText (encodeInteger?_eq_some_iff.1 hv) (by simp)
  · have hpoint : f.HasPoint := (FloatFields.text_of_ofText? hf).2.1
    refine ⟨f.toVariable .eightByte, encodeFloat?_eq_some_iff.2 ⟨f, hf, hfits.wide, rfl⟩, ?_⟩
    rw [FloatFields.ofVariable_toVariable hfits.wide hpoint,
      FloatFields.ofVariable_toVariable hfits hpoint]

end Number

/-! ### Parts -/

namespace Part

/-- A part in four bytes and the same part in eight bytes.  Only what was in the dictionary
    may be stored in another way. -/
inductive Widens : Part .fourByte → Part .eightByte → Prop where
  | text (bytes : Bytes) : Widens (text bytes) (text bytes)
  | integer {u : Variable .fourByte} {v : Variable .eightByte} :
    v.toInt = u.toInt → Widens (integer u) (integer v)
  | float {u : Variable .fourByte} {v : Variable .eightByte} :
    FloatFields.ofVariable v = FloatFields.ofVariable u → Widens (float u) (float v)
  | dictionary (token : Bytes) {part : Part .eightByte} {kind : Placeholder} :
    part.placeholder? = some kind → Widens (dictionary token) part

variable {w : Width}

theorem exists_placeholder?_ofToken (token : Bytes) :
    ∃ kind, (ofToken w token).placeholder? = some kind := by
  unfold ofToken
  split
  · exact ⟨_, rfl⟩
  · split <;> exact ⟨_, rfl⟩

theorem widens_ofToken (token : Bytes) :
    Widens (ofToken .fourByte token) (ofToken .eightByte token) := by
  cases hinteger : encodeInteger? .fourByte token with
  | some u =>
    obtain ⟨v, hv, hvalue⟩ := Number.exists_wide_integer hinteger
    simp only [ofToken, hinteger, hv]
    exact .integer hvalue
  | none =>
    cases hfloat : encodeFloat? .fourByte token with
    | some u =>
      obtain ⟨hnone, v, hv, hfields⟩ := Number.exists_wide_float hfloat
      simp only [ofToken, hinteger, hfloat, hnone, hv]
      exact .float hfields
    | none =>
      -- in eight bytes the token may be a number, or not
      obtain ⟨kind, hkind⟩ := exists_placeholder?_ofToken (w := .eightByte) token
      have hnarrow : ofToken .fourByte token = dictionary token := by
        simp only [ofToken, hinteger, hfloat]
      rw [hnarrow]
      exact .dictionary token hkind

/-- Each run in both widths. -/
theorem widens_ofRun (run : Run) : Widens (ofRun .fourByte run) (ofRun .eightByte run) := by
  by_cases hv : run.isVariable = true
  · rw [ofRun, ofRun, if_pos hv, if_pos hv]
    exact widens_ofToken run.bytes
  · rw [ofRun, ofRun, if_neg hv, if_neg hv]
    exact .text run.bytes

theorem logType_of_placeholder? {part : Part w} {kind : Placeholder}
    (h : part.placeholder? = some kind) : part.logType = [kind.toByte] := by
  cases part with
  | text => cases h
  | integer | float | dictionary =>
    cases h
    rfl

theorem Widens.inline?_eq_none {narrow : Part .fourByte} {wide : Part .eightByte}
    (h : Widens narrow wide) (hwide : wide.inline? = none) : narrow.inline? = none := by
  cases h with
  | text | dictionary => rfl
  | integer | float => cases hwide

theorem Widens.length_logType {narrow : Part .fourByte} {wide : Part .eightByte}
    (h : Widens narrow wide) : wide.logType.length = narrow.logType.length := by
  cases h with
  | text | integer | float => rfl
  | dictionary _ hkind =>
    rw [logType_of_placeholder? hkind]
    rfl

/-- A variable is one in both widths, and only those in the dictionary change their kind. -/
theorem Widens.exists_placeholder? {narrow : Part .fourByte} {wide : Part .eightByte}
    (h : Widens narrow wide) {kind : Placeholder} (hkind : narrow.placeholder? = some kind) :
    ∃ kind', wide.placeholder? = some kind' ∧ (kind' = kind ∨ kind = .dictionary) := by
  cases h with
  | text => cases hkind
  | integer | float => exact ⟨kind, hkind, .inl rfl⟩
  | dictionary _ hwide =>
    cases hkind
    exact ⟨_, hwide, .inr rfl⟩

/-- No part escapes what stands behind it. -/
theorem isEscaped_logType (part : Part w) :
    isEscaped part.logType part.logType.length = false := by
  cases part with
  | integer | float | dictionary => rfl
  | text bytes =>
    rw [Bool.eq_false_iff, ne_eq, LogType.isEscaped_length_iff]
    have hitems := LogType.items_escape_append bytes []
    rw [List.append_nil] at hitems
    show ¬ .dangling ∈ items (LogType.escape bytes)
    rw [hitems]
    simp [items]

theorem isEscaped_flatMap_logType (parts : List (Part w)) :
    isEscaped (parts.flatMap logType) (parts.flatMap logType).length = false := by
  induction parts with
  | nil => rfl
  | cons part rest ih =>
    rw [List.flatMap_cons]
    exact LogType.isEscaped_append (isEscaped_logType part) ih

end Part

/-! ### Positions of parts -/

namespace Encoded

section

variable {w : Width} {front back : List (Part w)} {part : Part w} {i j : Nat}

/-- Each position of the log type belongs to a run. -/
theorem exists_part {runs : List Run}
    (h : i < ((runs.map (Part.ofRun w)).flatMap Part.logType).length) :
    ∃ front run back j, runs = front ++ run :: back ∧ j < (Part.ofRun w run).logType.length ∧
      i = ((front.map (Part.ofRun w)).flatMap Part.logType).length + j := by
  induction runs generalizing i with
  | nil => cases h
  | cons run rest ih =>
    by_cases hi : i < (Part.ofRun w run).logType.length
    · exact ⟨[], run, rest, i, rfl, hi, (Nat.zero_add i).symm⟩
    · rw [List.map_cons, List.flatMap_cons, List.length_append] at h
      obtain ⟨front, found, back, j, rfl, hj, hrest⟩ :=
        ih (i := i - (Part.ofRun w run).logType.length) (by omega)
      refine ⟨run :: front, found, back, j, rfl, hj, ?_⟩
      rw [List.map_cons, List.flatMap_cons, List.length_append]
      omega

theorem flatMap_logType_split :
    (assemble (front ++ part :: back)).logType =
      front.flatMap Part.logType ++ (part.logType ++ back.flatMap Part.logType) := by
  rw [assemble, List.flatMap_append, List.flatMap_cons]

theorem getElem?_part (hj : j < part.logType.length) :
    (assemble (front ++ part :: back)).logType[(front.flatMap Part.logType).length + j]? =
      part.logType[j]? := by
  rw [flatMap_logType_split, List.getElem?_append_right (Nat.le_add_right ..),
    Nat.add_sub_cancel_left, List.getElem?_append_left hj]

theorem isEscaped_part (hj : j < part.logType.length) :
    isEscaped (assemble (front ++ part :: back)).logType
      ((front.flatMap Part.logType).length + j) = isEscaped part.logType j := by
  rw [flatMap_logType_split,
    LogType.isEscaped_append_right (Part.isEscaped_flatMap_logType front),
    LogType.isEscaped_append_left (Nat.le_of_lt hj)]

theorem itemAt?_part (hj : j < part.logType.length) :
    itemAt? (assemble (front ++ part :: back)).logType
      ((front.flatMap Part.logType).length + j) = itemAt? part.logType j := by
  rw [flatMap_logType_split,
    LogType.itemAt?_append_right (Part.isEscaped_flatMap_logType front),
    LogType.itemAt?_append_left (Part.isEscaped_logType part) hj]

end

section

variable {w : Width} (front back : List (Part w)) {part : Part w} {kind : Placeholder}
  (hkind : part.placeholder? = some kind)

include hkind

/-! Where a variable stands there is its placeholder, which is not escaped. -/

theorem getElem?_placeholder :
    (assemble (front ++ part :: back)).logType[(front.flatMap Part.logType).length]? =
      some kind.toByte := by
  have hlogType := Part.logType_of_placeholder? hkind
  have hfirst : (assemble (front ++ part :: back)).logType[
      (front.flatMap Part.logType).length + 0]? = part.logType[0]? :=
    getElem?_part (hlogType ▸ Nat.one_pos)
  rw [hlogType] at hfirst
  exact hfirst

theorem isEscaped_placeholder :
    isEscaped (assemble (front ++ part :: back)).logType (front.flatMap Part.logType).length =
      false := by
  have hlogType := Part.logType_of_placeholder? hkind
  have hpos : 0 < part.logType.length := hlogType ▸ Nat.one_pos
  exact isEscaped_part hpos

theorem itemAt?_placeholder :
    itemAt? (assemble (front ++ part :: back)).logType (front.flatMap Part.logType).length =
      some (.placeholder kind) := by
  rw [LogType.itemAt?_of_ne (getElem?_placeholder front back hkind)
    (isEscaped_placeholder front back hkind)
    (by cases kind <;> decide), Item.ofByte, Placeholder.ofByte?_toByte]

end

section

variable {w : Width} {front back : List (Part w)} {part : Part w}

/-- The items of some kind before a part are those of the parts before it. -/
theorem rank_part {p : Item → Bool} (hp : ∀ b, p (.literal b) = false) :
    rank (assemble (front ++ part :: back)).logType p (front.flatMap Part.logType).length =
      front.countP fun part => part.placeholder?.any fun kind => p (.placeholder kind) := by
  rw [flatMap_logType_split, LogType.rank_append (Part.isEscaped_flatMap_logType front),
    countP_items_parts hp]

/-- A part that is stored inline takes its own variable. -/
theorem inlineAt?_part {v : Variable w} (h : part.inline? = some v) :
    (assemble (front ++ part :: back)).inlineAt? (front.flatMap Part.logType).length = some v := by
  have hrank : rank (assemble (front ++ part :: back)).logType Item.isInline
      (front.flatMap Part.logType).length = (front.filterMap Part.inline?).length := by
    rw [rank_part (fun _ => rfl), List.length_filterMap_eq_countP]
    apply List.countP_congr
    intro part _
    cases part <;> simp [Part.placeholder?, Part.inline?, Item.isInline]
  have hinline : (assemble (front ++ part :: back)).inline =
      front.filterMap Part.inline? ++ v :: back.filterMap Part.inline? := by
    rw [assemble, List.filterMap_append, List.filterMap_cons_some h]
  rw [inlineAt?, hrank, hinline, List.getElem?_append_right (Nat.le_refl _), Nat.sub_self,
    List.getElem?_cons_zero]

variable (hmax : ∀ stop ∈ endsFrom 0 ((front ++ part :: back).filterMap Part.token?),
  stop ≤ endMax)

include hmax

/-- A part that is stored in the dictionary takes its own text. -/
theorem entryAt?_part {token : Bytes} (h : part.token? = some token) :
    (assemble (front ++ part :: back)).entryAt? (front.flatMap Part.logType).length =
      some token := by
  have hrank : rank (assemble (front ++ part :: back)).logType Item.isDictionary
      (front.flatMap Part.logType).length = (front.filterMap Part.token?).length := by
    rw [rank_part (fun _ => rfl), List.length_filterMap_eq_countP]
    apply List.countP_congr
    intro part _
    cases part <;> simp [Part.placeholder?, Part.token?, Item.isDictionary]
  rw [entryAt?, hrank, dictVar?_eq_getElem? rfl hmax rfl, List.filterMap_append,
    List.filterMap_cons_some h, List.getElem?_append_right (Nat.le_refl _), Nat.sub_self,
    List.getElem?_cons_zero]

/-- **A variable is written where its part begins.** -/
theorem pieceAt_of_renders {kind : Placeholder} {text : Bytes}
    (hkind : part.placeholder? = some kind) (h : part.Renders text) :
    (assemble (front ++ part :: back)).PieceAt (front.flatMap Part.logType).length text := by
  refine .item (itemAt?_placeholder front back hkind) ?_
  cases part with
  | text => cases hkind
  | integer v =>
    cases hkind
    exact .integer (inlineAt?_part rfl) (Decimal.ofInteger_eq_iff.1 h)
  | float v =>
    cases hkind
    exact .float (inlineAt?_part rfl) (Number.floatText_eq_ok_iff.1 h)
  | dictionary token =>
    cases hkind
    obtain rfl : token = text := h
    exact .dictionary (entryAt?_part hmax rfl)

end

/-! ### Positions in both widths -/

/-- What a position of the log type has in common in both widths. -/
structure WidenedAt (narrow : Encoded .fourByte) (wide : Encoded .eightByte) (i : Nat) : Prop where
  /-- The bytes are the same, or a placeholder of the dictionary is that of an integer or a
      float in eight bytes. -/
  byte : wide.logType[i]? = narrow.logType[i]? ∨
    isEscaped narrow.logType i = false ∧ narrow.logType[i]? = some 0x12 ∧
      (wide.logType[i]? = some 0x11 ∨ wide.logType[i]? = some 0x13)
  escaped : isEscaped wide.logType i = isEscaped narrow.logType i
  /-- The position is written as the same text. -/
  piece : ∃ piece, narrow.PieceAt i piece ∧ wide.PieceAt i piece
  /-- Integers stay integers, with the same value. -/
  integer : itemAt? narrow.logType i = some (.placeholder .integer) →
    itemAt? wide.logType i = some (.placeholder .integer) ∧
      ∃ u v, narrow.inlineAt? i = some u ∧ wide.inlineAt? i = some v ∧ v.toInt = u.toInt
  /-- Floats stay floats, with the same digits and the point in the same place. -/
  float : itemAt? narrow.logType i = some (.placeholder .float) →
    itemAt? wide.logType i = some (.placeholder .float) ∧
      ∃ u v, narrow.inlineAt? i = some u ∧ wide.inlineAt? i = some v ∧
        FloatFields.ofVariable v = FloatFields.ofVariable u

/-- What the encoded forms of one message have in common in both widths. -/
structure Widened (narrow : Encoded .fourByte) (wide : Encoded .eightByte) : Prop where
  length : wide.logType.length = narrow.logType.length
  positions : ∀ i < narrow.logType.length, WidenedAt narrow wide i
  /-- In eight bytes, no dictionary variable is added. -/
  entries : ((List.range wide.ends.length).map wide.dictVar?).Sublist
    ((List.range narrow.ends.length).map narrow.dictVar?)

/-- Static text is made of bytes that are literal, and of those that escape them. -/
theorem itemAt?_escape (bytes : Bytes) (j : Nat) :
    itemAt? (LogType.escape bytes) j = none ∨
      ∃ b, itemAt? (LogType.escape bytes) j = some (.literal b) := by
  cases hitem : itemAt? (LogType.escape bytes) j with
  | none => exact .inl rfl
  | some item =>
    obtain ⟨b, hb⟩ := LogType.exists_of_itemAt? hitem
    have hmem : item ∈ items (LogType.escape bytes) := by
      rw [LogType.items_eq]
      refine List.mem_filterMap.2 ⟨j, List.mem_range.2 ?_, hitem⟩
      exact (List.getElem?_eq_some_iff.1 hb).1
    have hitems := LogType.items_escape_append bytes []
    rw [List.append_nil] at hitems
    rw [hitems, items, List.append_nil] at hmem
    obtain ⟨b, -, rfl⟩ := List.mem_map.1 hmem
    exact .inr ⟨b, rfl⟩

section

variable {front back : List (Part .fourByte)} {front' back' : List (Part .eightByte)}
  (hplace : (front'.flatMap Part.logType).length = (front.flatMap Part.logType).length)

include hplace

/-- Static text is the same in both widths. -/
theorem widenedAt_text {bytes : Bytes} {j : Nat} (hj : j < (LogType.escape bytes).length) :
    WidenedAt (assemble (front ++ .text bytes :: back))
      (assemble (front' ++ .text bytes :: back'))
      ((front.flatMap Part.logType).length + j) := by
  have hnarrow : itemAt? (assemble (front ++ .text bytes :: back)).logType
      ((front.flatMap Part.logType).length + j) = itemAt? (LogType.escape bytes) j :=
    itemAt?_part hj
  have hwide : itemAt? (assemble (front' ++ .text bytes :: back')).logType
      ((front.flatMap Part.logType).length + j) = itemAt? (LogType.escape bytes) j := by
    rw [← hplace]
    exact itemAt?_part hj
  have hno (kind : Placeholder) :
      itemAt? (LogType.escape bytes) j ≠ some (.placeholder kind) := by
    intro hkind
    rcases itemAt?_escape bytes j with hnone | ⟨b, hb⟩
    · rw [hnone] at hkind
      cases hkind
    · rw [hb] at hkind
      cases hkind
  constructor
  · left
    rw [getElem?_part hj, ← hplace]
    exact getElem?_part hj
  · rw [isEscaped_part hj, ← hplace]
    exact isEscaped_part hj
  · -- what is no placeholder is written as it is, whatever the variables are
    rcases itemAt?_escape bytes j with hnone | ⟨b, hb⟩
    · exact ⟨[], .escape (hnarrow.trans hnone), .escape (hwide.trans hnone)⟩
    · exact ⟨[b], .item (hnarrow.trans hb) (.literal b), .item (hwide.trans hb) (.literal b)⟩
  · intro hinteger
    rw [hnarrow] at hinteger
    exact absurd hinteger (hno .integer)
  · intro hfloat
    rw [hnarrow] at hfloat
    exact absurd hfloat (hno .float)

/-- A variable is stored as before, or is taken from the dictionary. -/
theorem widenedAt_variable {part : Part .fourByte} {part' : Part .eightByte}
    (hwidens : Part.Widens part part') {kind : Placeholder}
    (hkind : part.placeholder? = some kind) {text : Bytes} (hrenders : part.Renders text)
    (hrenders' : part'.Renders text)
    (hmax : ∀ stop ∈ endsFrom 0 ((front ++ part :: back).filterMap Part.token?), stop ≤ endMax)
    (hmax' : ∀ stop ∈ endsFrom 0 ((front' ++ part' :: back').filterMap Part.token?),
      stop ≤ endMax) :
    WidenedAt (assemble (front ++ part :: back)) (assemble (front' ++ part' :: back'))
      (front.flatMap Part.logType).length := by
  obtain ⟨kind', hkind', hsame⟩ := hwidens.exists_placeholder? hkind
  have hbyte := getElem?_placeholder front back hkind
  have hitem := itemAt?_placeholder front back hkind
  have hescaped := isEscaped_placeholder front back hkind
  have hbyte' := getElem?_placeholder front' back' hkind'
  have hitem' := itemAt?_placeholder front' back' hkind'
  have hescaped' := isEscaped_placeholder front' back' hkind'
  have hpiece' := pieceAt_of_renders hmax' hkind' hrenders'
  rw [hplace] at hbyte' hitem' hescaped' hpiece'
  refine ⟨?_, hescaped'.trans hescaped.symm,
    ⟨text, pieceAt_of_renders hmax hkind hrenders, hpiece'⟩, ?_, ?_⟩
  · rw [hbyte, hbyte']
    rcases hsame with rfl | rfl
    · exact .inl rfl
    · -- what was in the dictionary may be there still
      cases kind' with
      | dictionary => exact .inl rfl
      | integer => exact .inr ⟨hescaped, rfl, .inl rfl⟩
      | float => exact .inr ⟨hescaped, rfl, .inr rfl⟩
  · intro hinteger
    rw [hitem] at hinteger
    cases hinteger
    cases hwidens with
    | integer hvalue =>
      cases hkind'
      exact ⟨hitem', _, _, inlineAt?_part rfl, hplace ▸ inlineAt?_part rfl, hvalue⟩
    | text | float | dictionary => cases hkind
  · intro hfloat
    rw [hitem] at hfloat
    cases hfloat
    cases hwidens with
    | float hfields =>
      cases hkind'
      exact ⟨hitem', _, _, inlineAt?_part rfl, hplace ▸ inlineAt?_part rfl, hfields⟩
    | text | integer | dictionary => cases hkind

end

theorem length_flatMap_logType (runs : List Run) :
    ((runs.map (Part.ofRun .eightByte)).flatMap Part.logType).length =
      ((runs.map (Part.ofRun .fourByte)).flatMap Part.logType).length := by
  induction runs with
  | nil => rfl
  | cons run rest ih =>
    simp only [List.map_cons, List.flatMap_cons, List.length_append, ih,
      (Part.widens_ofRun run).length_logType]

theorem widenedAt_ofMessage {message : Bytes} {narrow : Encoded .fourByte}
    {wide : Encoded .eightByte} (hnarrow : ofMessage .fourByte message = .ok narrow)
    (hwide : ofMessage .eightByte message = .ok wide) {i : Nat} (hi : i < narrow.logType.length) :
    WidenedAt narrow wide i := by
  obtain ⟨hmax, rfl⟩ := ofParts_eq_ok_iff.1 hnarrow
  obtain ⟨hmax', rfl⟩ := ofParts_eq_ok_iff.1 hwide
  obtain ⟨front, run, back, j, hruns, hj, rfl⟩ := exists_part hi
  have hsplit (w : Width) : (Run.ofMessage message).map (Part.ofRun w) =
      front.map (Part.ofRun w) ++ Part.ofRun w run :: back.map (Part.ofRun w) := by
    rw [hruns, List.map_append, List.map_cons]
  -- what stands before the run takes the same place in both widths
  have hplace := length_flatMap_logType front
  rw [hsplit] at hmax hmax' ⊢
  rw [hsplit]
  by_cases hv : run.isVariable = true
  · have hpart (w : Width) : Part.ofRun w run = Part.ofToken w run.bytes := if_pos hv
    obtain ⟨kind, hkind⟩ := Part.exists_placeholder?_ofToken (w := .fourByte) run.bytes
    rw [← hpart] at hkind
    -- a variable is one byte of the log type
    rw [Part.logType_of_placeholder? hkind] at hj
    obtain rfl : j = 0 := Nat.lt_one_iff.1 hj
    exact widenedAt_variable hplace (Part.widens_ofRun run) hkind (Part.renders_ofRun run)
      (Part.renders_ofRun run) hmax hmax'
  · have htext (w : Width) : Part.ofRun w run = .text run.bytes := if_neg hv
    rw [htext] at hj ⊢
    rw [htext]
    exact widenedAt_text hplace hj

/-- In eight bytes, only some of the dictionary variables are left. -/
theorem sublist_entries (message : Bytes) :
    (entries .eightByte message).Sublist (entries .fourByte message) := by
  -- both are the tokens of the message that are not stored inline
  apply List.monotone_filter_right
  intro token hwide
  rw [← inline?_ofToken, Option.isNone_iff_eq_none] at hwide ⊢
  exact (Part.widens_ofToken token).inline?_eq_none hwide

/-- **The two widths.**  The log type of a message has the same length in both widths, and the
    same bytes at the same positions, but for some placeholders of the dictionary.  All that is
    stored inline in four bytes is stored inline in eight bytes, with the same placeholder and
    the same value, and the dictionary variables in eight bytes are some of those in four, in
    the same order. -/
theorem widened {message : Bytes} (h : message.length ≤ 2 ^ 31 - 1) :
    ∃ narrow wide, ofMessage .fourByte message = .ok narrow ∧
      ofMessage .eightByte message = .ok wide ∧ Widened narrow wide := by
  obtain ⟨narrow, hnarrow⟩ := exists_ofMessage .fourByte h
  obtain ⟨wide, hwide⟩ := exists_ofMessage .eightByte h
  refine ⟨narrow, wide, hnarrow, hwide, ?_, fun i hi => widenedAt_ofMessage hnarrow hwide hi, ?_⟩
  · obtain ⟨-, rfl⟩ := ofParts_eq_ok_iff.1 hnarrow
    obtain ⟨-, rfl⟩ := ofParts_eq_ok_iff.1 hwide
    exact length_flatMap_logType (Run.ofMessage message)
  · have hnarrowSlices := (isOf_of_ofMessage hnarrow).slices
    have hwideSlices := (isOf_of_ofMessage hwide).slices
    rw [hnarrowSlices, hwideSlices]
    exact (sublist_entries message).map some

/-- An integer and a float that need eight bytes among numbers and words that do not. -/
theorem widened_numbers :
    let message : Bytes := [0x34, 0x32, 0x39, 0x34, 0x39, 0x36, 0x37, 0x32, 0x39, 0x36, 0x20,
      0x2D, 0x37, 0x20, 0x30, 0x2E, 0x35, 0x20, 0x61, 0x31, 0x20, 0x12, 0x20, 0x31, 0x32, 0x33,
      0x34, 0x35, 0x36, 0x37, 0x38, 0x2E, 0x39]
    message.length ≤ 2 ^ 31 - 1 ∧
      ∃ narrow wide, ofMessage .fourByte message = .ok narrow ∧
        ofMessage .eightByte message = .ok wide ∧ Widened narrow wide ∧
        narrow.logType = [0x12, 0x20, 0x11, 0x20, 0x13, 0x20, 0x12, 0x20, 0x5C, 0x12, 0x20, 0x12] ∧
        wide.logType = [0x11, 0x20, 0x11, 0x20, 0x13, 0x20, 0x12, 0x20, 0x5C, 0x12, 0x20, 0x13] := by
  intro message
  have hlength : message.length ≤ 2 ^ 31 - 1 := by decide
  obtain ⟨narrow, wide, hnarrow, hwide, hwidened⟩ := widened hlength
  have hlogType : (ofMessage .fourByte message).map logType = .ok
      [0x12, 0x20, 0x11, 0x20, 0x13, 0x20, 0x12, 0x20, 0x5C, 0x12, 0x20, 0x12] := by
    decide +kernel
  have hlogType' : (ofMessage .eightByte message).map logType = .ok
      [0x11, 0x20, 0x11, 0x20, 0x13, 0x20, 0x12, 0x20, 0x5C, 0x12, 0x20, 0x13] := by
    decide +kernel
  rw [hnarrow] at hlogType
  rw [hwide] at hlogType'
  exact ⟨hlength, narrow, wide, hnarrow, hwide, hwidened, Except.ok.inj hlogType,
    Except.ok.inj hlogType'⟩

end Encoded

end LogCodec
