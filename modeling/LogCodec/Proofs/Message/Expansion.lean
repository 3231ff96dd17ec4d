import LogCodec.Proofs.Message.Acceptance

/-! # How long a message can become

    An encoded message names its bytes by offsets and its numbers by bits, and both may
    be any.  Still it cannot be written as much more than it is: a number has at most
    twenty bytes, and what is copied from the dictionary is copied in order and once.

    * `Number.length_integerText_le`, `Number.length_floatText_le`: the longest numbers.
    * `Encoded.copiedAt`: the places in the dictionary that are copied at a position.
    * `Encoded.flatMap_copiedAt`: along the log type they are the numbers from zero on.
    * `Encoded.Written`: a message that was written without a fault, and
      `Encoded.Written.length_le`: how long it is. -/

namespace LogCodec

open LogType (Item itemAt? rank)
open Number (FloatFields)

variable {w : Width}

/-! ### Texts of numbers -/

namespace Decimal

theorem length_ofInteger_le (i : Int) : (ofInteger i).length ≤ (digits i.natAbs).length + 1 := by
  unfold ofInteger
  split
  · exact Nat.le_refl _
  · exact Nat.le_succ _

end Decimal

/-- The most bytes of the text of an inline variable: a sign and the digits, and in a
    float the point. -/
def Width.textMax : Width → Nat
  | .fourByte => 11
  | .eightByte => 20

namespace Number

theorem natAbs_toInt_le (v : Variable w) : v.toInt.natAbs ≤ 2 ^ (w.bits - 1) := by
  have hle := BitVec.le_toInt v
  have hlt := BitVec.toInt_lt (x := v)
  have hcast : ((2 ^ (w.bits - 1) : Nat) : Int) = 2 ^ (w.bits - 1) := Int.natCast_pow 2 _
  omega

/-- A sign and the digits. -/
theorem length_integerText_le (v : Variable w) : (integerText v).length ≤ w.textMax := by
  obtain ⟨k, hk, hpow, hmax⟩ : ∃ k, 0 < k ∧ 2 ^ (w.bits - 1) < 10 ^ k ∧ k + 1 ≤ w.textMax := by
    cases w with
    | fourByte => exact ⟨10, by decide⟩
    | eightByte => exact ⟨19, by decide⟩
  have hdigits := Decimal.length_digits_le hk (Nat.lt_of_le_of_lt (natAbs_toInt_le v) hpow)
  calc (integerText v).length
    _ ≤ (Decimal.digits v.toInt.natAbs).length + 1 := Decimal.length_ofInteger_le v.toInt
    _ ≤ k + 1 := Nat.add_le_add_right hdigits 1
    _ ≤ w.textMax := hmax

/-- The digits of a float, its point, and a sign. -/
theorem FloatFields.length_text_le {f : FloatFields} (h : f.Consistent) :
    f.text.length ≤ f.digitCount + 2 := by
  have hpadded := Decimal.length_padded h.1
  have hsign : (if f.negative then [0x2D] else ([] : Bytes)).length ≤ 1 := by
    split <;> decide
  simp only [text, List.length_append, List.length_cons, List.length_take, List.length_drop,
    hpadded]
  omega

theorem length_floatText_le {v : Variable w} {text : Bytes} (h : floatText v = .ok text) :
    text.length ≤ w.textMax := by
  unfold floatText at h
  dsimp only at h
  split at h
  · rename_i hconsistent
    obtain rfl := Except.ok.inj h
    have hlength := FloatFields.length_text_le hconsistent
    have hcount := (FloatFields.fits_ofVariable v).1
    have hmax : w.floatDigitsMax + 2 ≤ w.textMax := by cases w <;> decide
    omega
  · cases h

end Number

namespace Encoded

variable {e : Encoded w}

/-! ### What is copied from the dictionary -/

/-- The places in the dictionary whose bytes are copied at a position of the log type: those
    between two ends that are neighbours, for a dictionary placeholder. -/
def copiedAt (e : Encoded w) (i : Nat) : List Nat :=
  if itemAt? e.logType i = some (.placeholder .dictionary) then
    let start := e.startOf (rank e.logType Item.isDictionary i)
    let stop := e.startOf (rank e.logType Item.isDictionary i + 1)
    List.range' start.toNat (stop - start).toNat
  else []

/-- All that are copied, in the order in which they are. -/
def copied (e : Encoded w) : List Nat := (List.range e.logType.length).flatMap e.copiedAt

theorem copiedAt_of_ne {i : Nat} (h : itemAt? e.logType i ≠ some (.placeholder .dictionary)) :
    e.copiedAt i = [] :=
  if_neg h

/-- A part of a list, by its places. -/
theorem take_drop_eq_filterMap {α : Type} (l : List α) (start size : Nat) :
    (l.drop start).take size = (List.range' start size).filterMap (l[·]?) := by
  induction size generalizing start with
  | zero => rfl
  | succ size ih =>
    rw [List.range'_succ, List.filterMap_cons, ← ih]
    cases hget : l[start]? with
    | none =>
      have hend : l.drop (start + 1) = [] := by
        rw [← List.tail_drop, drop_eq_nil_of_none hget]
        rfl
      rw [drop_eq_nil_of_none hget, hend, List.take_nil, List.take_nil]
    | some a => rw [drop_eq_cons_iff.2 ⟨hget, rfl⟩, List.take_succ_cons]

/-- A dictionary variable that is there lies between two ends in order, within the
    dictionary. -/
theorem dictVar?_eq_some {index : Nat} {entry : Bytes} (h : dictVar? e index = some entry) :
    0 ≤ e.startOf index ∧ e.startOf index ≤ e.startOf (index + 1) ∧
      entry = (List.range' (e.startOf index).toNat
        (e.startOf (index + 1) - e.startOf index).toNat).filterMap (e.dictionary[·]?) := by
  rw [dictVar?_eq] at h
  obtain ⟨stop, hstop, hslice⟩ := Option.bind_eq_some_iff.1 h
  unfold slice? at hslice
  obtain ⟨hbounds, hentry⟩ := Option.ite_none_right_eq_some.1 hslice
  rw [startOf_succ hstop, ← take_drop_eq_filterMap]
  exact ⟨hbounds.1, hbounds.2.1, (Option.some.inj hentry).symm⟩

section

variable {i : Nat} {piece : Bytes}

/-- What is written for a dictionary placeholder are the bytes at these places. -/
theorem eq_of_pieceAt_dictionary (hitem : itemAt? e.logType i = some (.placeholder .dictionary))
    (hpiece : e.PieceAt i piece) : piece = (e.copiedAt i).filterMap (e.dictionary[·]?) := by
  cases (pieceAt_iff_of_some hitem).1 hpiece with
  | dictionary hentry =>
    obtain ⟨-, -, hentry⟩ := dictVar?_eq_some hentry
    rw [copiedAt, if_pos hitem]
    exact hentry

/-- For no other position anything is copied: with another dictionary the piece is the
    same. -/
theorem pieceAt_with_dictionary_iff
    (hitem : itemAt? e.logType i ≠ some (.placeholder .dictionary)) (dictionary : Bytes) :
    ({ e with dictionary := dictionary } : Encoded w).PieceAt i piece ↔ e.PieceAt i piece := by
  cases hat : itemAt? e.logType i with
  | none =>
    rw [pieceAt_iff_of_none hat, pieceAt_iff_of_none (e := { e with dictionary := dictionary }) hat]
  | some item =>
    rw [pieceAt_iff_of_some hat, pieceAt_iff_of_some (e := { e with dictionary := dictionary }) hat]
    constructor
    · intro hpiece
      cases hpiece with
      | literal b => exact .literal b
      | integer hv htext => exact .integer hv htext
      | float hv htext => exact .float hv htext
      | dictionary => exact absurd hat hitem
    · intro hpiece
      cases hpiece with
      | literal b => exact .literal b
      | integer hv htext => exact .integer hv htext
      | float hv htext => exact .float hv htext
      | dictionary => exact absurd hat hitem

/-- The step.  A position copies what follows on what was copied before, if anything. -/
theorem copied_step (hused : e.Used (rank e.logType Item.isDictionary i))
    (hpiece : e.PieceAt i piece) :
    e.Used (rank e.logType Item.isDictionary (i + 1)) ∧
      List.range (e.startOf (rank e.logType Item.isDictionary i)).toNat ++ e.copiedAt i =
        List.range (e.startOf (rank e.logType Item.isDictionary (i + 1))).toNat := by
  by_cases hitem : itemAt? e.logType i = some (.placeholder .dictionary)
  · have hnext : rank e.logType Item.isDictionary (i + 1) =
        rank e.logType Item.isDictionary i + 1 := LogType.rank_succ_of_some hitem
    obtain ⟨entry, hentry⟩ : ∃ entry, e.entryAt? i = some entry := by
      cases (pieceAt_iff_of_some hitem).1 hpiece with
      | dictionary hentry => exact ⟨_, hentry⟩
    obtain ⟨hstart, hle, -⟩ := dictVar?_eq_some hentry
    refine ⟨hnext ▸ .succ hentry, ?_⟩
    rw [copiedAt, if_pos hitem, hnext, List.range_eq_range', List.range_eq_range']
    -- the two ends are neighbours
    have hsum := List.range'_append_1 (s := 0)
      (m := (e.startOf (rank e.logType Item.isDictionary i)).toNat)
      (n := (e.startOf (rank e.logType Item.isDictionary i + 1) -
        e.startOf (rank e.logType Item.isDictionary i)).toNat)
    rw [Nat.zero_add] at hsum
    rw [hsum]
    congr 1
    omega
  · have hnext : rank e.logType Item.isDictionary (i + 1) = rank e.logType Item.isDictionary i := by
      rw [LogType.rank_succ, if_neg, Nat.add_zero]
      intro h
      obtain ⟨item, hat, hp⟩ := (Option.any_eq_true _ _).1 h
      obtain rfl : item = .placeholder .dictionary := eq_of_beq hp
      exact hitem hat
    rw [hnext, copiedAt_of_ne hitem, List.append_nil]
    exact ⟨hused, rfl⟩

/-- **What is copied.**  Along the log type the places that are copied are the numbers
    from zero on, as far as the dictionary variables go that were used. -/
theorem flatMap_copiedAt (h : ∀ j < i, ∃ piece, e.PieceAt j piece) :
    e.Used (rank e.logType Item.isDictionary i) ∧
      (List.range i).flatMap e.copiedAt =
        List.range (e.startOf (rank e.logType Item.isDictionary i)).toNat := by
  induction i with
  | zero => exact ⟨e.used_zero, rfl⟩
  | succ i ih =>
    obtain ⟨hused, hcopied⟩ := ih fun j hj => h j (Nat.lt_succ_of_lt hj)
    obtain ⟨piece, hpiece⟩ := h i (Nat.lt_succ_self i)
    obtain ⟨hused', hstep⟩ := copied_step hused hpiece
    rw [List.range_succ, List.flatMap_append, List.flatMap_singleton, hcopied]
    exact ⟨hused', hstep⟩

/-! ### How much is written -/

/-- The step.  A position writes one byte, the text of the variable that it uses, or what
    it copies. -/
theorem length_pieceAt_le (hpiece : e.PieceAt i piece) :
    piece.length + w.textMax * rank e.logType Item.isInline i ≤
      1 + w.textMax * rank e.logType Item.isInline (i + 1) + (e.copiedAt i).length := by
  have hinline (hlength : piece.length ≤ w.textMax)
      (hnext : rank e.logType Item.isInline (i + 1) = rank e.logType Item.isInline i + 1) :
      piece.length + w.textMax * rank e.logType Item.isInline i ≤
        1 + w.textMax * rank e.logType Item.isInline (i + 1) + (e.copiedAt i).length := by
    rw [hnext, Nat.mul_succ]
    omega
  have hother (hlength : piece.length ≤ 1 + (e.copiedAt i).length) :
      piece.length + w.textMax * rank e.logType Item.isInline i ≤
        1 + w.textMax * rank e.logType Item.isInline (i + 1) + (e.copiedAt i).length := by
    have hrank : rank e.logType Item.isInline i ≤ rank e.logType Item.isInline (i + 1) :=
      LogType.rank_mono (Nat.le_succ i)
    have hmono := Nat.mul_le_mul_left w.textMax hrank
    omega
  cases hpiece with
  | escape => exact hother (Nat.zero_le _)
  | item hitem hpiece =>
    cases hpiece with
    | literal b => exact hother (Nat.le_add_right ..)
    | @integer v _ hv htext =>
      have htext : Number.integerText v = piece := Decimal.ofInteger_eq_iff.2 htext
      rw [← htext] at hinline ⊢
      exact hinline (Number.length_integerText_le v) (LogType.rank_succ_of_some hitem)
    | float hv htext =>
      have hfloat := Number.floatText_eq_ok_iff.2 htext
      exact hinline (Number.length_floatText_le hfloat) (LogType.rank_succ_of_some hitem)
    | dictionary hentry =>
      refine hother ?_
      rw [eq_of_pieceAt_dictionary hitem (.item hitem (.dictionary hentry))]
      exact Nat.le_add_left_of_le (List.length_filterMap_le ..)

/-- The run.  So many positions write no more than this. -/
theorem length_flatMap_le {pieces : Nat → Bytes} (h : ∀ j < i, e.PieceAt j (pieces j)) :
    ((List.range i).flatMap pieces).length ≤
      i + w.textMax * rank e.logType Item.isInline i +
        ((List.range i).flatMap e.copiedAt).length := by
  induction i with
  | zero => exact Nat.zero_le _
  | succ i ih =>
    have hbefore := ih fun j hj => h j (Nat.lt_succ_of_lt hj)
    have hstep := length_pieceAt_le (h i (Nat.lt_succ_self i))
    simp only [List.range_succ, List.flatMap_append, List.flatMap_singleton, List.length_append]
    omega

end

/-! ### Messages -/

/-- A message that was written without a fault. -/
structure Written (e : Encoded w) (message : Bytes) : Prop where
  usesAll : e.UsesAll
  spells : e.Spells message

theorem written_of_render {message : Bytes} (h : e.render = ⟨message, none⟩) :
    e.Written message := by
  obtain ⟨hfault, htext⟩ := renderItems_range' (Nat.zero_add _) e.reached_zero []
  have hstart : e.renderItems ((List.range' 0 e.logType.length).filterMap (itemAt? e.logType))
      (e.stageAt [] 0) = ⟨message, none⟩ := by
    rw [← h, render, renderOnto, LogType.items_eq, List.range_eq_range']
    rfl
  rw [hstart, ← List.range_eq_range'] at hfault htext
  obtain ⟨hpieces, hall⟩ := hfault.1 rfl
  have hexists : ∀ i < e.logType.length, ∃ piece, e.PieceAt i piece :=
    fun i hi => hpieces i (List.mem_range.2 hi)
  choose! piece hpiece using hexists
  exact ⟨hall, piece, hpiece, htext piece (fun i hi => hpiece i (List.mem_range.1 hi)) rfl⟩

namespace Written

variable {message : Bytes} (h : e.Written message)

include h

theorem exists_pieceAt {i : Nat} (hi : i < e.logType.length) : ∃ piece, e.PieceAt i piece := by
  obtain ⟨piece, hpiece, -⟩ := h.spells
  exact ⟨piece i, hpiece i hi⟩

/-- All places up to the last end are copied, one after another. -/
theorem copied_eq : e.copied = List.range (e.startOf e.ends.length).toNat := by
  rw [copied, (flatMap_copiedAt fun i hi => h.exists_pieceAt hi).2, h.usesAll.2]

theorem used : e.Used e.ends.length := by
  have hused := (flatMap_copiedAt fun i hi => h.exists_pieceAt hi).1
  rwa [h.usesAll.2] at hused

theorem lt_of_mem_copied {place : Nat} (hplace : place ∈ e.copied) :
    place < e.dictionary.length := by
  have hle := h.used.start_le
  rw [h.copied_eq, List.mem_range] at hplace
  omega

theorem length_le : message.length ≤
    e.logType.length + w.textMax * e.inline.length + e.dictionary.length := by
  obtain ⟨piece, hpiece, hmessage⟩ := h.spells
  have hlength := length_flatMap_le hpiece
  have hcopied : e.copied.length ≤ e.dictionary.length := by
    have hle := h.used.start_le
    rw [h.copied_eq, List.length_range]
    omega
  rw [h.usesAll.1] at hlength
  rw [hmessage]
  exact Nat.le_trans hlength (Nat.add_le_add_left hcopied _)

end Written

end Encoded

end LogCodec
