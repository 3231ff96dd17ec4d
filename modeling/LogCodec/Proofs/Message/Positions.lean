import LogCodec.Proofs.Message.LogType
import Mathlib.Data.List.Basic

/-! # Positions of log types

    What a byte of a log type stands for is told by its position alone: by the byte,
    and by whether it is escaped.  Which variable a placeholder takes is told by how
    many placeholders stand before it.

    * `LogType.isEscaped`, `LogType.itemAt?`: what stands at a position.
    * `LogType.items_eq`: reading from the left finds these items.
    * `LogType.rank`: how many items of a kind stand before a position.
    * `LogType.itemAt?_append_right`: what stands behind a text is not changed by it. -/

namespace LogCodec

theorem drop_eq_cons_iff {α : Type} {l rest : List α} {i : Nat} {a : α} :
    l.drop i = a :: rest ↔ l[i]? = some a ∧ l.drop (i + 1) = rest := by
  rw [List.drop_eq_getElem?_toList_append]
  cases ha : l[i]? with
  | none =>
    have hlength := List.getElem?_eq_none_iff.1 ha
    simp [List.drop_of_length_le (Nat.le_succ_of_le hlength)]
  | some b => simp

theorem drop_eq_nil_of_none {α : Type} {l : List α} {i : Nat} (h : l[i]? = none) :
    l.drop i = [] :=
  List.drop_of_length_le (List.getElem?_eq_none_iff.1 h)

theorem Placeholder.ofByte?_eq_none_iff {b : UInt8} :
    Placeholder.ofByte? b = none ↔ ¬ (b = 0x11 ∨ b = 0x12 ∨ b = 0x13) := by
  unfold Placeholder.ofByte?
  split <;> simp_all

namespace LogType

/-- Is the byte at this position escaped?  It is if an escape byte stands before it that
    is not escaped itself. -/
def isEscaped (text : Bytes) : Nat → Bool
  | 0 => false
  | i + 1 => text[i]? == some escapeByte && !isEscaped text i

/-- The item at a position.  There is none where an escape byte stands before the byte
    that it escapes. -/
def itemAt? (text : Bytes) (i : Nat) : Option Item :=
  text[i]?.bind fun b =>
    if isEscaped text i then some (.literal b)
    else if b = escapeByte then if i + 1 = text.length then some .dangling else none
    else some (.ofByte b)

section

variable {text : Bytes} {i : Nat} {b : UInt8}

theorem isEscaped_succ (hb : text[i]? = some b) (h : isEscaped text i = false) :
    isEscaped text (i + 1) = (b == escapeByte) := by
  simp [isEscaped, hb, h]

theorem isEscaped_succ_of_isEscaped (h : isEscaped text i = true) :
    isEscaped text (i + 1) = false := by
  simp [isEscaped, h]

theorem itemAt?_of_isEscaped (hb : text[i]? = some b) (h : isEscaped text i = true) :
    itemAt? text i = some (.literal b) := by
  simp [itemAt?, hb, h]

theorem itemAt?_of_ne (hb : text[i]? = some b) (h : isEscaped text i = false)
    (hne : b ≠ escapeByte) : itemAt? text i = some (.ofByte b) := by
  simp [itemAt?, hb, h, hne]

theorem itemAt?_escapeByte (hb : text[i]? = some escapeByte) (h : isEscaped text i = false) :
    itemAt? text i = if i + 1 = text.length then some .dangling else none := by
  simp [itemAt?, hb, h]

end

theorem isReserved_iff {b : UInt8} : isReserved b = true ↔ 0x10 ≤ b ∧ b ≤ 0x1F := by
  rw [isReserved, Bool.and_eq_true, decide_eq_true_iff, decide_eq_true_iff]

theorem Item.ofByte_eq_unknown_iff {b c : UInt8} :
    Item.ofByte c = .unknown b ↔
      c = b ∧ isReserved b = true ∧ ¬ (b = 0x11 ∨ b = 0x12 ∨ b = 0x13) := by
  rw [← Placeholder.ofByte?_eq_none_iff, ofByte]
  cases hkind : Placeholder.ofByte? c with
  | some kind =>
    simp only [reduceCtorEq, false_iff]
    rintro ⟨rfl, -, hnone⟩
    rw [hkind] at hnone
    cases hnone
  | none =>
    by_cases hc : isReserved c = true
    · simp only [hc, if_true, Item.unknown.injEq]
      exact ⟨fun h => ⟨h, h ▸ hc, h ▸ hkind⟩, fun h => h.1⟩
    · simp only [hc, Bool.false_eq_true, if_false, reduceCtorEq, false_iff]
      rintro ⟨rfl, h, -⟩
      exact hc h

theorem Item.ofByte_ne_dangling (b : UInt8) : Item.ofByte b ≠ .dangling := by
  unfold ofByte
  split
  · simp
  · split <;> simp

/-- What may stand at a position of a byte. -/
theorem itemAt?_cases {text : Bytes} {i : Nat} {b : UInt8} (hb : text[i]? = some b) :
    isEscaped text i = true ∧ itemAt? text i = some (.literal b) ∨
      isEscaped text i = false ∧ b = escapeByte ∧
        itemAt? text i = (if i + 1 = text.length then some .dangling else none) ∨
      isEscaped text i = false ∧ b ≠ escapeByte ∧ itemAt? text i = some (.ofByte b) := by
  cases hescaped : isEscaped text i with
  | true => exact .inl ⟨rfl, itemAt?_of_isEscaped hb hescaped⟩
  | false =>
    by_cases hne : b = escapeByte
    · subst hne
      exact .inr (.inl ⟨rfl, rfl, itemAt?_escapeByte hb hescaped⟩)
    · exact .inr (.inr ⟨rfl, hne, itemAt?_of_ne hb hescaped hne⟩)

theorem exists_of_itemAt? {text : Bytes} {i : Nat} {item : Item}
    (h : itemAt? text i = some item) : ∃ b, text[i]? = some b := by
  obtain ⟨b, hb, -⟩ := Option.bind_eq_some_iff.1 h
  exact ⟨b, hb⟩

/-- A reserved byte that is no placeholder. -/
theorem itemAt?_eq_unknown_iff {text : Bytes} {i : Nat} {b : UInt8} :
    itemAt? text i = some (.unknown b) ↔ text[i]? = some b ∧ isEscaped text i = false ∧
      isReserved b = true ∧ ¬ (b = 0x11 ∨ b = 0x12 ∨ b = 0x13) := by
  constructor
  · intro hitem
    obtain ⟨c, hc⟩ := exists_of_itemAt? hitem
    rcases itemAt?_cases hc with ⟨-, h⟩ | ⟨-, -, h⟩ | ⟨hescaped, -, h⟩
    · simp [h] at hitem
    · split at h <;> simp [h] at hitem
    · rw [h, Option.some.injEq, Item.ofByte_eq_unknown_iff] at hitem
      obtain ⟨rfl, hitem⟩ := hitem
      exact ⟨hc, hescaped, hitem⟩
  · rintro ⟨hb, hescaped, hunknown⟩
    have hne : b ≠ escapeByte := by
      rintro rfl
      exact absurd hunknown.1 (by decide)
    rw [itemAt?_of_ne hb hescaped hne, Item.ofByte_eq_unknown_iff.2 ⟨rfl, hunknown⟩]

/-- Only at the end an escape byte is an item itself. -/
theorem exists_dangling_iff {text : Bytes} :
    (∃ i < text.length, itemAt? text i = some .dangling) ↔
      isEscaped text text.length = true := by
  constructor
  · rintro ⟨i, -, hitem⟩
    obtain ⟨c, hc⟩ := exists_of_itemAt? hitem
    rcases itemAt?_cases hc with ⟨-, h⟩ | ⟨hescaped, rfl, h⟩ | ⟨-, -, h⟩
    · simp [h] at hitem
    · split at h
      · rename_i hend
        rw [← hend, isEscaped_succ hc hescaped]
        rfl
      · simp [h] at hitem
    · rw [h, Option.some.injEq] at hitem
      exact absurd hitem (Item.ofByte_ne_dangling c)
  · intro h
    cases hlength : text.length with
    | zero => simp [hlength, isEscaped] at h
    | succ i =>
      rw [hlength, isEscaped] at h
      simp only [Bool.and_eq_true, beq_iff_eq, Bool.not_eq_true'] at h
      refine ⟨i, Nat.lt_succ_self i, ?_⟩
      rw [itemAt?_escapeByte h.1 h.2, if_pos hlength.symm]

/-- From a byte that is not escaped on, the items are those at the positions. -/
theorem items_drop {text : Bytes} {i : Nat} (h : isEscaped text i = false) :
    items (text.drop i) =
      (List.range' i (text.length - i)).filterMap (itemAt? text) := by
  rw [show text.length - i = (text.drop i).length from List.length_drop.symm]
  generalize hrest : text.drop i = rest
  fun_induction items rest generalizing i with
  | case1 => rfl
  | case2 =>
    -- an escape byte at the end
    obtain ⟨hb, hend⟩ := drop_eq_cons_iff.1 hrest
    have hlast : i + 1 = text.length := by
      have := (List.getElem?_eq_some_iff.1 hb).1
      have := List.drop_eq_nil_iff.1 hend
      omega
    rw [List.length_singleton, List.range'_one, List.filterMap_cons, itemAt?_escapeByte hb h,
      if_pos hlast, List.filterMap_nil]
  | case3 b hne =>
    obtain ⟨hb, -⟩ := drop_eq_cons_iff.1 hrest
    rw [List.length_singleton, List.range'_one, List.filterMap_cons, itemAt?_of_ne hb h hne,
      List.filterMap_nil]
  | case4 c rest ih =>
    -- an escape byte, and the byte that it escapes
    obtain ⟨hb, hrest⟩ := drop_eq_cons_iff.1 hrest
    obtain ⟨hc, hrest⟩ := drop_eq_cons_iff.1 hrest
    have hescaped : isEscaped text (i + 1) = true := by
      rw [isEscaped_succ hb h]
      decide
    have hlast : i + 1 ≠ text.length := by
      have := (List.getElem?_eq_some_iff.1 hc).1
      omega
    rw [List.length_cons, List.length_cons, List.range'_succ, List.range'_succ,
      List.filterMap_cons, List.filterMap_cons, itemAt?_escapeByte hb h, if_neg hlast,
      itemAt?_of_isEscaped hc hescaped, ih (isEscaped_succ_of_isEscaped hescaped) hrest]
  | case5 b c rest hne ih =>
    obtain ⟨hb, hrest⟩ := drop_eq_cons_iff.1 hrest
    have hnext : isEscaped text (i + 1) = false := by
      rw [isEscaped_succ hb h]
      simpa using hne
    rw [List.length_cons, List.range'_succ, List.filterMap_cons, itemAt?_of_ne hb h hne,
      ih hnext hrest]

/-- The items of a log type are those at its positions. -/
theorem items_eq (text : Bytes) :
    items text = (List.range text.length).filterMap (itemAt? text) := by
  have := @items_drop text 0 rfl
  rwa [List.drop_zero, Nat.sub_zero, ← List.range_eq_range'] at this

/-- Does the item take an inline variable? -/
def Item.isInline (item : Item) : Bool :=
  item == .placeholder .integer || item == .placeholder .float

/-- Does the item take a dictionary variable? -/
def Item.isDictionary (item : Item) : Bool := item == .placeholder .dictionary

/-- How many items of some kind stand before a position. -/
def rank (text : Bytes) (p : Item → Bool) (i : Nat) : Nat :=
  (List.range i).countP fun j => (itemAt? text j).any p

section

variable {text : Bytes} {p : Item → Bool} {i : Nat}

theorem rank_succ :
    rank text p (i + 1) = rank text p i + if (itemAt? text i).any p then 1 else 0 := by
  rw [rank, List.range_succ, List.countP_append, List.countP_singleton]
  rfl

theorem rank_succ_of_some {item : Item} (h : itemAt? text i = some item) :
    rank text p (i + 1) = rank text p i + if p item then 1 else 0 := by
  rw [rank_succ, h, Option.any_some]

theorem rank_succ_of_none (h : itemAt? text i = none) :
    rank text p (i + 1) = rank text p i := by
  simp [rank_succ, h]

/-- Each number below that of all items of a kind is that of the items before one of
    them. -/
theorem exists_rank_eq {k n : Nat} (h : k < rank text p n) :
    ∃ i < n, (itemAt? text i).any p = true ∧ rank text p i = k := by
  induction n with
  | zero => cases h
  | succ n ih =>
    rw [rank_succ] at h
    by_cases hk : k < rank text p n
    · obtain ⟨i, hi, hp, hrank⟩ := ih hk
      exact ⟨i, Nat.lt_succ_of_lt hi, hp, hrank⟩
    · -- it is the item at the last position
      have hp : (itemAt? text n).any p = true := by
        by_contra hp
        rw [if_neg hp] at h
        omega
      rw [if_pos hp] at h
      exact ⟨n, Nat.lt_succ_self n, hp, by omega⟩

theorem rank_mono {j : Nat} (h : i ≤ j) : rank text p i ≤ rank text p j := by
  induction h with
  | refl => exact Nat.le_refl _
  | step _ ih =>
    rw [rank_succ]
    omega

theorem rank_lt_rank {item : Item} {j : Nat} (hitem : itemAt? text i = some item)
    (hp : p item = true) (h : i < j) : rank text p i < rank text p j := by
  have hnext : rank text p (i + 1) = rank text p i + 1 := by
    rw [rank_succ_of_some hitem, if_pos hp]
  have hmono : rank text p (i + 1) ≤ rank text p j := rank_mono h
  omega

theorem countP_items (text : Bytes) (p : Item → Bool) :
    (items text).countP p = rank text p text.length := by
  rw [items_eq, List.countP_filterMap, rank]
  congr 1
  funext j
  cases itemAt? text j <;> rfl

end

/-! ### Texts one behind the other -/

section

variable {front back : Bytes} {i j : Nat}

theorem isEscaped_append_left (h : i ≤ front.length) :
    isEscaped (front ++ back) i = isEscaped front i := by
  induction i with
  | zero => rfl
  | succ i ih =>
    rw [isEscaped, isEscaped, ih (Nat.le_of_succ_le h), List.getElem?_append_left h]

/-- No byte behind a text is escaped by it, if it does not end in an escape byte that is
    not escaped itself. -/
theorem isEscaped_append_right (hfront : isEscaped front front.length = false) :
    isEscaped (front ++ back) (front.length + j) = isEscaped back j := by
  induction j with
  | zero => rw [Nat.add_zero, isEscaped_append_left (Nat.le_refl _), hfront, isEscaped]
  | succ j ih =>
    rw [← Nat.add_assoc, isEscaped, isEscaped, ih, List.getElem?_append_right (Nat.le_add_right ..),
      Nat.add_sub_cancel_left]

theorem isEscaped_append (hfront : isEscaped front front.length = false)
    (hback : isEscaped back back.length = false) :
    isEscaped (front ++ back) (front ++ back).length = false := by
  rw [List.length_append, isEscaped_append_right hfront, hback]

theorem itemAt?_append_left (hfront : isEscaped front front.length = false)
    (h : i < front.length) : itemAt? (front ++ back) i = itemAt? front i := by
  have hlast : isEscaped front i = false → front[i]? = some escapeByte →
      i + 1 ≠ front.length := by
    intro hi hescape hend
    -- an escape byte at the end would escape what stands behind the text
    rw [← hend, isEscaped_succ hescape hi] at hfront
    cases hfront
  have hwhole : i + 1 ≤ front.length → i + 1 = (front ++ back).length → i + 1 = front.length := by
    intro hle heq
    rw [List.length_append] at heq
    omega
  have hb : (front ++ back)[i]? = front[i]? := List.getElem?_append_left h
  unfold itemAt?
  rw [hb, isEscaped_append_left (Nat.le_of_lt h)]
  apply Option.bind_congr
  intro b hget
  by_cases hescaped : isEscaped front i = true
  · rw [if_pos hescaped, if_pos hescaped]
  · by_cases hb : b = escapeByte
    · have hne := hlast (Bool.eq_false_iff.2 hescaped) (hb ▸ hget)
      rw [if_neg hescaped, if_neg hescaped, if_pos hb, if_pos hb, if_neg hne,
        if_neg fun heq => hne (hwhole h heq)]
    · rw [if_neg hescaped, if_neg hescaped, if_neg hb, if_neg hb]

theorem itemAt?_append_right (hfront : isEscaped front front.length = false) :
    itemAt? (front ++ back) (front.length + j) = itemAt? back j := by
  unfold itemAt?
  rw [isEscaped_append_right hfront, List.getElem?_append_right (Nat.le_add_right ..),
    Nat.add_sub_cancel_left, List.length_append]
  simp only [Nat.add_assoc, Nat.add_left_cancel_iff]

/-- As many items of a kind stand before the end of a text, whatever stands behind it. -/
theorem rank_append (hfront : isEscaped front front.length = false) (p : Item → Bool) :
    rank (front ++ back) p front.length = (items front).countP p := by
  rw [countP_items, rank, rank]
  apply List.countP_congr
  intro i hi
  rw [itemAt?_append_left hfront (List.mem_range.1 hi)]

theorem isEscaped_length_iff {text : Bytes} :
    isEscaped text text.length = true ↔ .dangling ∈ items text := by
  rw [← exists_dangling_iff, items_eq, List.mem_filterMap]
  simp only [List.mem_range]

end

end LogType

end LogCodec
