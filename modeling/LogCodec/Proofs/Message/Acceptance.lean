import LogCodec.Proofs.Message.Float
import LogCodec.Proofs.Message.Integer
import LogCodec.Proofs.Message.Positions
import Mathlib.Data.List.Chain
import Mathlib.Tactic.Choose

/-! # Which encoded messages can be written

    The fields of an encoded message may be any bytes and numbers.  Rendering follows
    the positions of the log type: at each of them it writes a piece, or it stops.

    * `Encoded.PieceAt`: what a position is written as, and `Encoded.Spells`: what all
      positions are.
    * `Encoded.Reached`: the invariant.  The variables that are used before a position
      are there.
    * `Encoded.WellFormed`: the condition under which all of a message can be written.
    * `Encoded.rendered`: a message is written without a fault just when it is
      well-formed, and then as what its positions spell. -/

namespace LogCodec

open LogType (Item itemAt? rank)
open Number (FloatFields FloatOf exists_floatOf_iff)

variable {w : Width}

namespace Rendering.Stage

variable (s : Stage w) (before : Bytes)

/-- The stage with more bytes in front of what was written. -/
def behind : Stage w := { s with written := s.written ++ before.reverse }

theorem put_behind (bytes : Bytes) : (s.behind before).put bytes = (s.put bytes).behind before := by
  simp [behind, put, List.reverseAux_eq]

theorem stop_behind (fault : Option DecodeFault) :
    (s.behind before).stop fault = ⟨before ++ (s.stop fault).text, (s.stop fault).fault⟩ := by
  simp [behind, stop]

theorem nextToken?_behind :
    (s.behind before).nextToken? =
      s.nextToken?.map fun (entry, s') => (entry, s'.behind before) := by
  unfold nextToken? behind
  dsimp only
  split
  · rfl
  · split
    · rw [Option.map_map]
      rfl
    · rfl

end Rendering.Stage

namespace Encoded

theorem placeholderCounts_eq (e : Encoded w) :
    e.placeholderCounts = (rank e.logType Item.isInline e.logType.length,
      rank e.logType Item.isDictionary e.logType.length) := by
  rw [← LogType.countP_items, ← LogType.countP_items]
  rfl

/-! ### Pieces -/

/-- The inline variable of a placeholder at this position. -/
def inlineAt? (e : Encoded w) (i : Nat) : Option (Variable w) :=
  e.inline[rank e.logType Item.isInline i]?

/-- The dictionary variable of a placeholder at this position. -/
def entryAt? (e : Encoded w) (i : Nat) : Option Bytes :=
  dictVar? e (rank e.logType Item.isDictionary i)

/-- What an item at this position is written as.  A byte that is no placeholder, or a lone
    escape byte, is not written. -/
inductive Piece (e : Encoded w) (i : Nat) : Item → Bytes → Prop where
  | literal (b : UInt8) : Piece e i (.literal b) [b]
  | integer {v : Variable w} {text : Bytes} :
    e.inlineAt? i = some v → IntegerText text v.toInt → Piece e i (.placeholder .integer) text
  | float {v : Variable w} {text : Bytes} :
    e.inlineAt? i = some v → FloatOf v text → Piece e i (.placeholder .float) text
  | dictionary {entry : Bytes} :
    e.entryAt? i = some entry → Piece e i (.placeholder .dictionary) entry

/-- What is written for a position.  That is nothing for an escape byte, if there is a
    byte that it escapes. -/
inductive PieceAt (e : Encoded w) (i : Nat) : Bytes → Prop where
  | escape : itemAt? e.logType i = none → PieceAt e i []
  | item {item : Item} {piece : Bytes} :
    itemAt? e.logType i = some item → Piece e i item piece → PieceAt e i piece

/-- The text that the positions of the log type are written as, one after another. -/
def Spells (e : Encoded w) (text : Bytes) : Prop :=
  ∃ piece : Nat → Bytes, (∀ i < e.logType.length, e.PieceAt i (piece i)) ∧
    text = (List.range e.logType.length).flatMap piece

section

variable {e : Encoded w} {i : Nat} {piece piece' : Bytes}

theorem pieceAt_iff_of_none (h : itemAt? e.logType i = none) :
    e.PieceAt i piece ↔ piece = [] := by
  constructor
  · intro hpiece
    cases hpiece with
    | escape => rfl
    | item hitem =>
      rw [h] at hitem
      cases hitem
  · intro hnil
    rw [hnil]
    exact .escape h

theorem pieceAt_iff_of_some {item : Item} (h : itemAt? e.logType i = some item) :
    e.PieceAt i piece ↔ e.Piece i item piece := by
  constructor
  · intro hpiece
    cases hpiece with
    | escape hnone =>
      rw [h] at hnone
      cases hnone
    | item hitem hpiece =>
      rw [h] at hitem
      cases hitem
      exact hpiece
  · exact .item h

/-- A position is written in one way. -/
theorem PieceAt.unique (h : e.PieceAt i piece) (h' : e.PieceAt i piece') : piece = piece' := by
  cases h with
  | escape hnone => exact ((pieceAt_iff_of_none hnone).1 h').symm
  | item hitem h =>
    have h' := (pieceAt_iff_of_some hitem).1 h'
    cases h with
    | literal =>
      cases h'
      rfl
    | integer hv htext =>
      cases h' with
      | integer hv' htext' =>
        obtain rfl := Option.some.inj (hv.symm.trans hv')
        rw [← Decimal.ofInteger_eq_iff.2 htext, Decimal.ofInteger_eq_iff.2 htext']
    | float hv htext =>
      cases h' with
      | float hv' htext' =>
        obtain rfl := Option.some.inj (hv.symm.trans hv')
        exact Except.ok.inj ((Number.floatText_eq_ok_iff.2 htext).symm.trans
          (Number.floatText_eq_ok_iff.2 htext'))
    | dictionary hentry =>
      cases h' with
      | dictionary hentry' => exact Option.some.inj (hentry.symm.trans hentry')

end

/-! ### Stages -/

/-- Where a dictionary variable begins: where the one before it ends. -/
def startOf (e : Encoded w) (index : Nat) : Int :=
  if index = 0 then 0 else (e.ends[index - 1]?.getD 0).toInt

theorem dictVar?_eq (e : Encoded w) (index : Nat) :
    dictVar? e index =
      e.ends[index]?.bind fun stop => slice? e.dictionary (e.startOf index) stop.toInt := by
  unfold dictVar?
  cases e.ends[index]? <;> rfl

/-- The stage in which so many inline and dictionary variables are used. -/
def stage (e : Encoded w) (written : Bytes) (inline entries : Nat) : Rendering.Stage w where
  written := written
  inline := e.inline.drop inline
  ends := e.ends.drop entries
  start := e.startOf entries
  dictionary := e.dictionary.drop (e.startOf entries).toNat

/-- So many dictionary variables are there. -/
structure Used (e : Encoded w) (entries : Nat) : Prop where
  ends : entries ≤ e.ends.length
  start_nonneg : 0 ≤ e.startOf entries
  start_le : e.startOf entries ≤ e.dictionary.length

theorem used_zero (e : Encoded w) : e.Used 0 :=
  ⟨Nat.zero_le _, Int.le_refl 0, Int.natCast_nonneg _⟩

theorem splitExact?_drop {dictionary : Bytes} {start stop : Int} (hstart : 0 ≤ start)
    (hle : start ≤ dictionary.length) (hstop : start ≤ stop) :
    Bytes.splitExact? (stop - start).toNat (dictionary.drop start.toNat) =
      (slice? dictionary start stop).map fun entry => (entry, dictionary.drop stop.toNat) := by
  by_cases hend : stop ≤ dictionary.length
  · have hsize : stop.toNat = start.toNat + (stop - start).toNat := by omega
    rw [slice?, if_pos ⟨hstart, hstop, hend⟩, Option.map_some, hsize, ← List.drop_drop]
    refine Bytes.splitExact?_eq_some_iff.2 ⟨(List.take_append_drop ..).symm, ?_⟩
    rw [List.length_take, List.length_drop]
    omega
  · rw [slice?, if_neg (fun h => hend h.2.2)]
    refine Bytes.splitExact?_eq_none_iff.2 ?_
    rw [List.length_drop]
    omega

section

variable {e : Encoded w} {entries : Nat}

theorem startOf_succ {stop : Offset} (h : e.ends[entries]? = some stop) :
    e.startOf (entries + 1) = stop.toInt := by
  simp [startOf, h]

/-- A dictionary variable that is there, and those before it. -/
theorem Used.succ {entry : Bytes} (h : dictVar? e entries = some entry) : e.Used (entries + 1) := by
  rw [dictVar?_eq] at h
  obtain ⟨stop, hstop, hslice⟩ := Option.bind_eq_some_iff.1 h
  obtain ⟨hlt, -⟩ := List.getElem?_eq_some_iff.1 hstop
  unfold slice? at hslice
  split at hslice
  · rename_i hbounds
    refine ⟨hlt, ?_, ?_⟩ <;> rw [startOf_succ hstop] <;> omega
  · cases hslice

/-- The next dictionary variable of a stage. -/
theorem nextToken?_stage (hused : e.Used entries) (written : Bytes) (inline : Nat) :
    (e.stage written inline entries).nextToken? =
      (dictVar? e entries).map fun entry => (entry, e.stage written inline (entries + 1)) := by
  rw [dictVar?_eq]
  unfold Rendering.Stage.nextToken? stage
  dsimp only
  cases hstop : e.ends[entries]? with
  | none =>
    rw [drop_eq_nil_of_none hstop]
    rfl
  | some stop =>
    have hends : e.ends.drop entries = stop :: e.ends.drop (entries + 1) :=
      drop_eq_cons_iff.2 ⟨hstop, rfl⟩
    rw [hends, startOf_succ hstop, Option.bind_some]
    dsimp only
    by_cases hle : e.startOf entries ≤ stop.toInt
    · rw [if_pos ⟨hused.start_nonneg, hle⟩,
        splitExact?_drop hused.start_nonneg hused.start_le hle, Option.map_map]
      rfl
    · rw [if_neg (fun h => hle h.2), slice?, if_neg (fun h => hle h.2.1)]
      rfl

end

/-! ### Rendering position by position -/

/-- The stage in which rendering comes to a position. -/
def stageAt (e : Encoded w) (written : Bytes) (i : Nat) : Rendering.Stage w :=
  e.stage written (rank e.logType Item.isInline i) (rank e.logType Item.isDictionary i)

/-- The variables that are used before a position are there. -/
structure Reached (e : Encoded w) (i : Nat) : Prop where
  inline : rank e.logType Item.isInline i ≤ e.inline.length
  used : e.Used (rank e.logType Item.isDictionary i)

theorem reached_zero (e : Encoded w) : e.Reached 0 := ⟨Nat.zero_le _, used_zero e⟩

section

variable {e : Encoded w} {i : Nat} (written : Bytes)

/-- Nothing happens at an escape byte. -/
theorem stageAt_succ_of_none (h : itemAt? e.logType i = none) :
    e.stageAt written (i + 1) = e.stageAt written i := by
  rw [stageAt, LogType.rank_succ_of_none h, LogType.rank_succ_of_none h]
  rfl

theorem stageAt_succ {item : Item} (h : itemAt? e.logType i = some item) :
    e.stageAt written (i + 1) =
      e.stage written (rank e.logType Item.isInline i + if item.isInline then 1 else 0)
        (rank e.logType Item.isDictionary i + if item.isDictionary then 1 else 0) := by
  rw [stageAt, LogType.rank_succ_of_some h, LogType.rank_succ_of_some h]

theorem Reached.succ_of_none (hreached : e.Reached i) (h : itemAt? e.logType i = none) :
    e.Reached (i + 1) := by
  constructor
  · rw [LogType.rank_succ_of_none h]
    exact hreached.inline
  · rw [LogType.rank_succ_of_none h]
    exact hreached.used

theorem Reached.succ {item : Item} (h : itemAt? e.logType i = some item)
    (hinline : rank e.logType Item.isInline i + (if item.isInline then 1 else 0) ≤
      e.inline.length)
    (hused : e.Used (rank e.logType Item.isDictionary i + if item.isDictionary then 1 else 0)) :
    e.Reached (i + 1) := by
  constructor
  · rwa [LogType.rank_succ_of_some h]
  · rwa [LogType.rank_succ_of_some h]

variable {item : Item} (hreached : e.Reached i) (hitem : itemAt? e.logType i = some item)
  (items : List Item)

include hreached hitem

/-- An item that cannot be written. -/
theorem renderItems_of_not_piece (hnone : ∀ piece, ¬e.Piece i item piece) :
    ∃ fault, e.renderItems (item :: items) (e.stageAt written i) =
      ⟨written.reverse, some fault⟩ := by
  cases item with
  | literal b => exact absurd (.literal b) (hnone [b])
  | unknown b => exact ⟨_, rfl⟩
  | dangling => exact ⟨_, rfl⟩
  | placeholder kind =>
    cases kind with
    | integer =>
      have hv : e.inlineAt? i = none := by
        apply Option.eq_none_iff_forall_ne_some.2
        intro v hv
        exact hnone _ (.integer hv (Decimal.integerText_ofInteger v.toInt))
      have hinline : (e.stageAt written i).inline = [] := drop_eq_nil_of_none hv
      rw [renderItems, hinline]
      exact ⟨_, rfl⟩
    | float =>
      cases hv : e.inlineAt? i with
      | none =>
        have hinline : (e.stageAt written i).inline = [] := drop_eq_nil_of_none hv
        rw [renderItems, hinline]
        exact ⟨_, rfl⟩
      | some v =>
        have hinline : (e.stageAt written i).inline = v :: _ := drop_eq_cons_iff.2 ⟨hv, rfl⟩
        rw [renderItems, hinline]
        cases hfloat : Number.floatText v with
        | error fault =>
          simp only [hfloat]
          exact ⟨_, rfl⟩
        | ok text => exact absurd (.float hv (Number.floatText_eq_ok_iff.1 hfloat)) (hnone text)
    | dictionary =>
      have hentry : e.entryAt? i = none := by
        apply Option.eq_none_iff_forall_ne_some.2
        intro entry hentry
        exact hnone entry (.dictionary hentry)
      have htoken : (e.stageAt written i).nextToken? = _ :=
        nextToken?_stage hreached.used written (rank e.logType Item.isInline i)
      rw [show dictVar? e _ = none from hentry] at htoken
      rw [renderItems, htoken]
      exact ⟨_, rfl⟩

/-- An item that is written. -/
theorem renderItems_of_piece {piece : Bytes} (hpiece : e.Piece i item piece) :
    e.renderItems (item :: items) (e.stageAt written i) =
        e.renderItems items (e.stageAt (piece.reverseAux written) (i + 1)) ∧
      e.Reached (i + 1) := by
  rw [stageAt_succ (piece.reverseAux written) hitem]
  cases hpiece with
  | literal b => exact ⟨rfl, .succ hitem hreached.inline hreached.used⟩
  | @integer v _ hv htext =>
    have hinline : (e.stageAt written i).inline = v :: _ := drop_eq_cons_iff.2 ⟨hv, rfl⟩
    have htext : Number.integerText v = piece := Decimal.ofInteger_eq_iff.2 htext
    rw [renderItems_integer e items _ hinline, htext]
    exact ⟨rfl, .succ hitem (List.getElem?_eq_some_iff.1 hv).1 hreached.used⟩
  | @float v _ hv htext =>
    have hinline : (e.stageAt written i).inline = v :: _ := drop_eq_cons_iff.2 ⟨hv, rfl⟩
    rw [renderItems_float e items _ hinline (Number.floatText_eq_ok_iff.2 htext)]
    exact ⟨rfl, .succ hitem (List.getElem?_eq_some_iff.1 hv).1 hreached.used⟩
  | dictionary hentry =>
    have htoken : (e.stageAt written i).nextToken? = _ :=
      nextToken?_stage hreached.used written (rank e.logType Item.isInline i)
    rw [show dictVar? e _ = some piece from hentry] at htoken
    rw [renderItems_dictionary e items htoken]
    exact ⟨rfl, .succ hitem hreached.inline (.succ hentry)⟩

end

/-- All variables are used by the placeholders. -/
def UsesAll (e : Encoded w) : Prop :=
  rank e.logType Item.isInline e.logType.length = e.inline.length ∧
    rank e.logType Item.isDictionary e.logType.length = e.ends.length

/-- At the end of the log type nothing may be left. -/
theorem isEmpty_stageAt_iff {e : Encoded w} (hreached : e.Reached e.logType.length)
    (written : Bytes) :
    ((e.stageAt written e.logType.length).inline.isEmpty &&
      (e.stageAt written e.logType.length).ends.isEmpty) = true ↔ e.UsesAll := by
  have hinline := hreached.inline
  have hends := hreached.used.ends
  simp only [stageAt, stage, UsesAll, Bool.and_eq_true, List.isEmpty_iff, List.drop_eq_nil_iff]
  omega

/-- Rendering from a position on.  It ends without a fault just when each position can
    be written and all variables are used, and then it has written the pieces. -/
theorem renderItems_range' {e : Encoded w} {i n : Nat} (hlength : i + n = e.logType.length)
    (hreached : e.Reached i) (written : Bytes) :
    let r := e.renderItems ((List.range' i n).filterMap (itemAt? e.logType))
      (e.stageAt written i)
    (r.fault = none ↔ (∀ j ∈ List.range' i n, ∃ piece, e.PieceAt j piece) ∧ e.UsesAll) ∧
      ∀ piece : Nat → Bytes, (∀ j ∈ List.range' i n, e.PieceAt j (piece j)) →
        r.fault = none → r.text = written.reverse ++ (List.range' i n).flatMap piece := by
  -- on the positions that are left
  induction n generalizing i written with
  | zero =>
    obtain rfl : i = e.logType.length := hlength
    have hempty := isEmpty_stageAt_iff hreached written
    rw [List.range'_zero, List.filterMap_nil, renderItems]
    split
    · rename_i hall
      simp [Rendering.Stage.stop, stageAt, stage, hempty.1 hall]
    · rename_i hleft
      simp [Rendering.Stage.stop, mt hempty.2 hleft]
  | succ n ih =>
    have hlength' : i + 1 + n = e.logType.length := by omega
    rw [List.range'_succ, List.filterMap_cons]
    simp only [List.flatMap_cons, List.forall_mem_cons]
    cases hitem : itemAt? e.logType i with
    | none =>
      obtain ⟨hfault, htext⟩ := ih hlength' (hreached.succ_of_none hitem) written
      rw [stageAt_succ_of_none written hitem] at hfault htext
      refine ⟨?_, ?_⟩
      · have hhere : ∃ piece, e.PieceAt i piece := ⟨[], .escape hitem⟩
        rw [and_iff_right hhere]
        exact hfault
      · intro piece hpieces
        rw [(pieceAt_iff_of_none hitem).1 hpieces.1]
        exact htext piece hpieces.2
    | some item =>
      by_cases hexists : ∃ piece, e.Piece i item piece
      · obtain ⟨piece, hpiece⟩ := hexists
        obtain ⟨hrender, hnext⟩ := renderItems_of_piece written hreached hitem
          ((List.range' (i + 1) n).filterMap (itemAt? e.logType)) hpiece
        obtain ⟨hfault, htext⟩ := ih hlength' hnext (piece.reverseAux written)
        rw [← hrender] at hfault htext
        refine ⟨?_, ?_⟩
        · have hhere : ∃ piece, e.PieceAt i piece := ⟨piece, .item hitem hpiece⟩
          rw [and_iff_right hhere]
          exact hfault
        · intro pieces hpieces hnone
          rw [hpieces.1.unique (.item hitem hpiece), ← List.append_assoc,
            htext pieces hpieces.2 hnone, List.reverseAux_eq, List.reverse_append,
            List.reverse_reverse]
      · have hnot : ¬∃ piece, e.PieceAt i piece := by
          intro hexists'
          obtain ⟨piece, hpiece⟩ := hexists'
          exact hexists ⟨piece, (pieceAt_iff_of_some hitem).1 hpiece⟩
        obtain ⟨fault, hrender⟩ := renderItems_of_not_piece written hreached hitem
          ((List.range' (i + 1) n).filterMap (itemAt? e.logType)) (not_exists.1 hexists)
        simp [hrender, hnot]

/-! ### What was there before -/

/-- What was written before is kept in front, and changes nothing behind it. -/
theorem renderItems_behind (e : Encoded w) (items : List Item) (s : Rendering.Stage w)
    (before : Bytes) :
    e.renderItems items (s.behind before) =
      ⟨before ++ (e.renderItems items s).text, (e.renderItems items s).fault⟩ := by
  fun_induction renderItems e items s with
  | case1 s h =>
    have hall : ((s.behind before).inline.isEmpty && (s.behind before).ends.isEmpty) = true := h
    rw [renderItems, if_pos hall]
    exact s.stop_behind before none
  | case2 s h =>
    have hleft : ¬ ((s.behind before).inline.isEmpty && (s.behind before).ends.isEmpty) = true := h
    rw [renderItems, if_neg hleft]
    exact s.stop_behind before _
  | case3 b items s ih =>
    rw [renderItems, Rendering.Stage.put_behind]
    exact ih
  | case4 items s hs | case6 items s hs =>
    rw [renderItems, show (s.behind before).inline = [] from hs]
    exact s.stop_behind before _
  | case5 items s v inline hs ih =>
    rw [renderItems_integer (s := s.behind before) e items inline hs]
    rw [← Rendering.Stage.put_behind] at ih
    exact ih
  | case7 items s v inline hs fault hv =>
    rw [renderItems, show (s.behind before).inline = v :: inline from hs]
    simp only [hv]
    exact s.stop_behind before _
  | case8 items s v inline hs text hv ih =>
    rw [renderItems_float (s := s.behind before) e items inline hs hv]
    rw [← Rendering.Stage.put_behind] at ih
    exact ih
  | case9 items s hs =>
    rw [renderItems, s.nextToken?_behind, hs]
    exact s.stop_behind before _
  | case10 items s entry s' hs ih =>
    rw [renderItems, s.nextToken?_behind, hs]
    dsimp only [Option.map_some]
    rw [Rendering.Stage.put_behind]
    exact ih
  | case11 b items s | case12 items s => exact s.stop_behind before _

/-! ### Well-formed messages -/

/-- The fields of an encoded message agree with each other. -/
structure WellFormed (e : Encoded w) : Prop where
  /-- The reserved bytes that are not escaped are placeholders. -/
  reserved : ∀ i b, e.logType[i]? = some b → LogType.isEscaped e.logType i = false →
    0x10 ≤ b → b ≤ 0x1F → b = 0x11 ∨ b = 0x12 ∨ b = 0x13
  /-- The last byte is no escape byte, or escaped itself. -/
  complete : LogType.isEscaped e.logType e.logType.length = false
  /-- There are as many placeholders as variables. -/
  counts : e.placeholderCounts = (e.inline.length, e.ends.length)
  /-- The ends of the dictionary variables do not decrease. -/
  ends : List.IsChain (· ≤ ·) (0 :: e.ends.map BitVec.toInt)
  /-- The last one is within the dictionary. -/
  last : ∀ stop, e.ends.getLast? = some stop → stop.toInt ≤ e.dictionary.length
  /-- The variables of float placeholders are those of texts. -/
  floats : ∀ i v, itemAt? e.logType i = some (.placeholder .float) → e.inlineAt? i = some v →
    ∃ text, FloatOf v text

section

variable {e : Encoded w}

/-! The dictionary variables. -/

theorem isSome_dictVar?_iff {index : Nat} :
    (dictVar? e index).isSome ↔ index < e.ends.length ∧ 0 ≤ e.startOf index ∧
      e.startOf index ≤ e.startOf (index + 1) ∧ e.startOf (index + 1) ≤ e.dictionary.length := by
  rw [dictVar?_eq]
  cases hstop : e.ends[index]? with
  | none =>
    have := List.getElem?_eq_none_iff.1 hstop
    simp only [Option.bind_none, Option.isSome_none, Bool.false_eq_true, false_iff]
    omega
  | some stop =>
    obtain ⟨hlt, -⟩ := List.getElem?_eq_some_iff.1 hstop
    rw [Option.bind_some, startOf_succ hstop, slice?]
    split
    · simp_all
    · simp_all

theorem isChain_ends_iff : List.IsChain (· ≤ ·) (0 :: e.ends.map BitVec.toInt) ↔
    ∀ index < e.ends.length, e.startOf index ≤ e.startOf (index + 1) := by
  have hget (i : Nat) (hi : i < (0 :: e.ends.map BitVec.toInt).length) :
      (0 :: e.ends.map BitVec.toInt)[i] = e.startOf i := by
    cases i with
    | zero => rfl
    | succ i =>
      have hlt : i < e.ends.length := by simpa using hi
      rw [startOf_succ (List.getElem?_eq_getElem hlt)]
      simp
  rw [List.isChain_iff_getElem]
  constructor
  · intro h index hindex
    have := h index (by simpa using hindex)
    rwa [hget, hget] at this
  · intro h i hi
    rw [hget, hget]
    exact h i (by simpa using hi)

theorem startOf_le_startOf (h : ∀ index < e.ends.length, e.startOf index ≤ e.startOf (index + 1))
    {i j : Nat} (hij : i ≤ j) (hj : j ≤ e.ends.length) : e.startOf i ≤ e.startOf j := by
  induction hij with
  | refl => exact Int.le_refl _
  | @step j _ ih => exact Int.le_trans (ih (Nat.le_of_succ_le hj)) (h j hj)

theorem startOf_length {stop : Offset} (h : e.ends.getLast? = some stop) :
    e.startOf e.ends.length = stop.toInt := by
  rw [List.getLast?_eq_getElem?] at h
  have hlt := (List.getElem?_eq_some_iff.1 h).1
  rw [← startOf_succ h]
  congr 1
  omega

/-- The dictionary variables are there just when their ends are in order. -/
theorem forall_isSome_dictVar?_iff :
    (∀ index < e.ends.length, (dictVar? e index).isSome) ↔
      List.IsChain (· ≤ ·) (0 :: e.ends.map BitVec.toInt) ∧
        ∀ stop, e.ends.getLast? = some stop → stop.toInt ≤ e.dictionary.length := by
  rw [isChain_ends_iff]
  constructor
  · intro h
    refine ⟨fun index hindex => (isSome_dictVar?_iff.1 (h index hindex)).2.2.1, ?_⟩
    intro stop hstop
    rw [List.getLast?_eq_getElem?] at hstop
    have hlt := (List.getElem?_eq_some_iff.1 hstop).1
    have hentry := isSome_dictVar?_iff.1 (h _ hlt)
    rw [startOf_succ hstop] at hentry
    exact hentry.2.2.2
  · rintro ⟨hchain, hlast⟩ index hindex
    refine isSome_dictVar?_iff.2 ⟨hindex, ?_, hchain index hindex, ?_⟩
    · exact startOf_le_startOf hchain (Nat.zero_le index) (Nat.le_of_lt hindex)
    · have hle := startOf_le_startOf hchain hindex (Nat.le_refl _)
      have hne : e.ends ≠ [] := List.ne_nil_of_length_pos (by omega)
      have hstop := List.getLast?_eq_some_getLast hne
      rw [startOf_length hstop] at hle
      exact Int.le_trans hle (hlast _ hstop)

/-- All positions of a well-formed message can be written. -/
theorem WellFormed.exists_pieceAt (h : e.WellFormed) {i : Nat} (hi : i < e.logType.length) :
    ∃ piece, e.PieceAt i piece := by
  have hcounts := h.counts
  rw [placeholderCounts_eq, Prod.mk.injEq] at hcounts
  obtain ⟨hinline, hentries⟩ := hcounts
  have hvariable {item : Item} (hitem : itemAt? e.logType i = some item)
      (hp : item.isInline = true) : ∃ v, e.inlineAt? i = some v := by
    have hlt := LogType.rank_lt_rank hitem hp hi
    rw [hinline] at hlt
    exact ⟨_, List.getElem?_eq_getElem hlt⟩
  cases hitem : itemAt? e.logType i with
  | none => exact ⟨[], .escape hitem⟩
  | some item =>
    suffices hpiece : ∃ piece, e.Piece i item piece by
      obtain ⟨piece, hpiece⟩ := hpiece
      exact ⟨piece, .item hitem hpiece⟩
    cases item with
    | literal b => exact ⟨[b], .literal b⟩
    | unknown b =>
      obtain ⟨hb, hescaped, hreserved, hplaceholder⟩ := LogType.itemAt?_eq_unknown_iff.1 hitem
      have hbounds := LogType.isReserved_iff.1 hreserved
      exact absurd (h.reserved i b hb hescaped hbounds.1 hbounds.2) hplaceholder
    | dangling =>
      have hend := LogType.exists_dangling_iff.1 ⟨i, hi, hitem⟩
      rw [h.complete] at hend
      cases hend
    | placeholder kind =>
      cases kind with
      | integer =>
        obtain ⟨v, hv⟩ := hvariable hitem rfl
        exact ⟨_, .integer hv (Decimal.integerText_ofInteger v.toInt)⟩
      | float =>
        obtain ⟨v, hv⟩ := hvariable hitem rfl
        obtain ⟨text, htext⟩ := h.floats i v hitem hv
        exact ⟨text, .float hv htext⟩
      | dictionary =>
        have hlt := LogType.rank_lt_rank (p := Item.isDictionary) hitem rfl hi
        rw [hentries] at hlt
        have hentry := forall_isSome_dictVar?_iff.2 ⟨h.ends, h.last⟩ _ hlt
        obtain ⟨entry, hentry⟩ := Option.isSome_iff_exists.1 hentry
        exact ⟨entry, .dictionary hentry⟩

end

theorem wellFormed_iff (e : Encoded w) :
    e.WellFormed ↔ (∀ i ∈ List.range e.logType.length, ∃ piece, e.PieceAt i piece) ∧
      e.UsesAll := by
  constructor
  · intro h
    refine ⟨fun i hi => h.exists_pieceAt (List.mem_range.1 hi), ?_⟩
    have hcounts := h.counts
    rwa [placeholderCounts_eq, Prod.mk.injEq] at hcounts
  · rintro ⟨hpieces, hall⟩
    have hpiece {i : Nat} {item : Item} (hitem : itemAt? e.logType i = some item) :
        ∃ piece, e.Piece i item piece := by
      obtain ⟨b, hb⟩ := LogType.exists_of_itemAt? hitem
      have hlt := (List.getElem?_eq_some_iff.1 hb).1
      obtain ⟨piece, hpiece⟩ := hpieces i (List.mem_range.2 hlt)
      exact ⟨piece, (pieceAt_iff_of_some hitem).1 hpiece⟩
    have hentries : ∀ index < e.ends.length, (dictVar? e index).isSome := by
      intro index hindex
      rw [← hall.2] at hindex
      obtain ⟨i, -, hdictionary, rfl⟩ := LogType.exists_rank_eq hindex
      obtain ⟨item, hitem, hp⟩ := (Option.any_eq_true _ _).1 hdictionary
      obtain rfl : item = .placeholder .dictionary := eq_of_beq hp
      obtain ⟨entry, hentry⟩ := hpiece hitem
      cases hentry with
      | dictionary hentry => exact Option.isSome_iff_exists.2 ⟨entry, hentry⟩
    obtain ⟨hends, hlast⟩ := forall_isSome_dictVar?_iff.1 hentries
    refine ⟨?_, ?_, ?_, hends, hlast, ?_⟩
    · intro i b hb hescaped hlow hhigh
      by_contra hplaceholder
      have hreserved : LogType.isReserved b = true := LogType.isReserved_iff.2 ⟨hlow, hhigh⟩
      obtain ⟨piece, hunknown⟩ :=
        hpiece (LogType.itemAt?_eq_unknown_iff.2 ⟨hb, hescaped, hreserved, hplaceholder⟩)
      cases hunknown
    · by_contra hend
      obtain ⟨i, -, hitem⟩ := LogType.exists_dangling_iff.2 (eq_true_of_ne_false hend)
      obtain ⟨piece, hdangling⟩ := hpiece hitem
      cases hdangling
    · rw [placeholderCounts_eq, hall.1, hall.2]
    · intro i v hitem hv
      obtain ⟨text, hfloat⟩ := hpiece hitem
      cases hfloat with
      | float hv' htext =>
        obtain rfl := Option.some.inj (hv.symm.trans hv')
        exact ⟨text, htext⟩

/-- **Rendering.**  An encoded message, whatever its fields are, is written without a
    fault just when it is well-formed, and then as the one text that it spells.  What was
    written before is kept in front in any case, and changes nothing behind it.  As for the
    floats of well-formed messages, a variable has a text just when its digits are no more
    than it says, and no more are behind the point than there are. -/
theorem rendered (e : Encoded w) (out : Bytes) :
    ((e.renderOnto out).fault = none ↔ e.WellFormed) ∧
      (e.WellFormed → ∀ text, (e.renderOnto out).text = out ++ text ↔ e.Spells text) ∧
      e.renderOnto out = ⟨out ++ e.render.text, e.render.fault⟩ ∧
      ∀ v : Variable w, (∃ text, FloatOf v text) ↔
        (FloatFields.ofVariable v).digits < 10 ^ (FloatFields.ofVariable v).digitCount ∧
          (FloatFields.ofVariable v).afterPoint ≤ (FloatFields.ofVariable v).digitCount := by
  obtain ⟨hfault, htext⟩ := renderItems_range' (Nat.zero_add _) e.reached_zero out.reverse
  have hstart : e.renderOnto out = e.renderItems
      ((List.range' 0 e.logType.length).filterMap (itemAt? e.logType))
      (e.stageAt out.reverse 0) := by
    rw [renderOnto, LogType.items_eq, List.range_eq_range']
    rfl
  rw [← hstart, ← List.range_eq_range', ← wellFormed_iff] at hfault
  rw [← hstart, List.reverse_reverse, ← List.range_eq_range'] at htext
  refine ⟨hfault, ?_, ?_, fun _ => exists_floatOf_iff⟩
  · intro hwell text
    have hwritten {piece : Nat → Bytes} (hpiece : ∀ i < e.logType.length, e.PieceAt i (piece i)) :
        (e.renderOnto out).text = out ++ (List.range e.logType.length).flatMap piece :=
      htext piece (fun i hi => hpiece i (List.mem_range.1 hi)) (hfault.2 hwell)
    constructor
    · intro hsame
      have hexists : ∀ i < e.logType.length, ∃ piece, e.PieceAt i piece :=
        fun i hi => hwell.exists_pieceAt hi
      choose! piece hpiece using hexists
      rw [hwritten hpiece] at hsame
      exact ⟨piece, hpiece, (List.append_cancel_left hsame).symm⟩
    · intro hspells
      obtain ⟨piece, hpiece, hsame⟩ := hspells
      rw [hwritten hpiece, hsame]
  · exact e.renderItems_behind (LogType.items e.logType) ⟨[], e.inline, e.ends, 0, e.dictionary⟩
      out

/-- An escaped reserved byte, a negative float, a letter, two dictionary variables, the
    second one empty, and an integer, behind a byte that was there before. -/
theorem rendered_escapes :
    let e : Encoded .fourByte :=
      ⟨[0x5C, 0x11, 0x13, 0x41, 0x12, 0x12, 0x11], [2147483976, 7], [0x61, 0x62], [2, 2]⟩
    let text : Bytes := [0x11, 0x2D, 0x30, 0x2E, 0x35, 0x41, 0x61, 0x62, 0x37]
    e.WellFormed ∧ (e.renderOnto [0x40]).text = [0x40] ++ text ∧ e.Spells text := by
  intro e text
  have hwell : e.WellFormed := (rendered e [0x40]).1.1 (by decide +kernel)
  have htext : (e.renderOnto [0x40]).text = [0x40] ++ text := by decide +kernel
  exact ⟨hwell, htext, ((rendered e [0x40]).2.1 hwell text).1 htext⟩

end Encoded

end LogCodec
