import LogCodec.Text.Utf8
import Mathlib.Tactic.IntervalCases
import Mathlib.Tactic.SplitIfs

/-! # UTF-8 is read as it was written

    The bytes of a character are one piece, whatever follows them, so the
    pieces of an encoded text are its characters. -/

namespace LogCodec.Utf8

/-! ### Continuation bytes -/

/-- A byte in range gives six bits of the code point. -/
theorem continuation_cons {more value n code used : Nat} {low high : UInt8} {rest : Bytes}
    (hn : n < 64) (hlow : low.toNat ≤ n + 0x80) (hhigh : n + 0x80 ≤ high.toNat)
    (h : continuation more 0x80 0xBF (value * 64 + n) rest = (some code, used)) :
    continuation (more + 1) low high value (UInt8.ofNat (n + 0x80) :: rest) =
      (some code, used + 1) := by
  have hbyte : (UInt8.ofNat (n + 0x80)).toNat = n + 0x80 := by
    rw [UInt8.toNat_ofNat']
    omega
  rw [continuation, if_pos ⟨UInt8.le_iff_toNat_le.2 (by omega), UInt8.le_iff_toNat_le.2 (by omega)⟩,
    hbyte, Nat.add_sub_cancel, h]

/-- The last byte of a character may be any continuation byte. -/
theorem continuation_last {value n code : Nat} {rest : Bytes} (hn : n < 64)
    (h : value * 64 + n = code) :
    continuation 1 0x80 0xBF value (UInt8.ofNat (n + 0x80) :: rest) = (some code, 1) :=
  continuation_cons hn (Nat.le_add_left ..) (Nat.add_le_add_right (Nat.le_of_lt_succ hn) _)
    (congrArg (fun code => (some code, 0)) h)

/-! ### Leading bytes -/

theorem toNat_ofNat {n : Nat} (h : n < 256) : (UInt8.ofNat n).toNat = n := by
  rw [UInt8.toNat_ofNat']
  omega

theorem lead?_one {n : Nat} (h : n < 0x80) :
    lead? (UInt8.ofNat n) = some ⟨n, 0, 0x80, 0xBF⟩ := by
  have hb := toNat_ofNat (n := n) (by omega)
  simp [lead?, UInt8.lt_iff_toNat_lt, hb, h]

theorem lead?_two {n : Nat} (h : 2 ≤ n) (h' : n < 0x20) :
    lead? (UInt8.ofNat (n + 0xC0)) = some ⟨n, 1, 0x80, 0xBF⟩ := by
  have hb := toNat_ofNat (n := n + 0xC0) (by omega)
  simp only [lead?, UInt8.lt_iff_toNat_lt, hb]
  rw [if_neg (by simp), if_neg (by simp; omega), if_pos (by simp; omega),
    Nat.add_sub_cancel]

/-- The least and the greatest byte after a leading byte of three bytes. -/
theorem lead?_three {n : Nat} (h : n < 0x10) :
    lead? (UInt8.ofNat (n + 0xE0)) = some ⟨n, 2, if n = 0 then 0xA0 else 0x80,
      if n = 0xD then 0x9F else 0xBF⟩ := by
  interval_cases n <;> rfl

theorem lead?_four {n : Nat} (h : n < 5) :
    lead? (UInt8.ofNat (n + 0xF0)) = some ⟨n, 3, if n = 0 then 0x90 else 0x80,
      if n = 4 then 0x8F else 0xBF⟩ := by
  interval_cases n <;> rfl

/-! ### Characters -/

theorem toNat_charOfNat {n : Nat} (h : n.isValidChar) : (Char.ofNat n).toNat = n := by
  rw [Char.ofNat, dif_pos h]
  rfl

/-- The bytes of a character are its first piece. -/
theorem firstPiece_utf8EncodeChar (c : Char) (rest : Bytes) :
    ∃ b more, String.utf8EncodeChar c = b :: more ∧
      firstPiece b (more ++ rest) = (.char c, more.length) := by
  have hvalid : c.val.toNat < 0xD800 ∨ 0xDFFF < c.val.toNat ∧ c.val.toNat < 0x110000 := c.valid
  have hchar : Char.ofNat c.val.toNat = c := Char.ofNat_toNat c
  generalize hv : c.val.toNat = v at hvalid hchar
  unfold String.utf8EncodeChar
  simp only [hv]
  -- one case for each count of bytes
  split_ifs with h₁ h₂ h₃
  · refine ⟨_, _, rfl, ?_⟩
    simp only [firstPiece, lead?_one (n := v) (by omega), continuation, hchar, List.length_nil]
  · refine ⟨_, _, rfl, ?_⟩
    have hcode : continuation 1 0x80 0xBF (v / 64 % 0x20)
        (UInt8.ofNat (v % 0x40 + 0x80) :: rest) = (some v, 1) :=
      continuation_last (by omega) (by omega)
    simp only [firstPiece, lead?_two (n := v / 64 % 0x20) (by omega) (by omega),
      List.cons_append, List.nil_append, hcode, hchar, List.length_cons, List.length_nil]
  · refine ⟨_, _, rfl, ?_⟩
    simp only [firstPiece, lead?_three (n := v / 4096 % 0x10) (by omega), List.cons_append,
      List.nil_append]
    rw [continuation_cons (by omega) (by split_ifs <;> simp; omega)
      (by split_ifs <;> simp <;> omega) (continuation_last (by omega) (by omega : _ = v))]
    simp only [hchar, List.length_cons, List.length_nil]
  · refine ⟨_, _, rfl, ?_⟩
    simp only [firstPiece, lead?_four (n := v / 262144 % 0x08) (by omega), List.cons_append,
      List.nil_append]
    rw [continuation_cons (by omega) (by split_ifs <;> simp; omega)
      (by split_ifs <;> simp <;> omega) (continuation_cons (by omega) (by simp) (by simp; omega)
        (continuation_last (by omega) (by omega : _ = v)))]
    simp only [hchar, List.length_cons, List.length_nil]

/-! ### Texts -/

/-- The pieces of a text are its characters. -/
theorem pieces_encode (text : List Char) : pieces (encode text) = text.map .char := by
  induction text with
  | nil => simp [encode, pieces]
  | cons c text ih =>
    obtain ⟨b, more, hbytes, hpiece⟩ := firstPiece_utf8EncodeChar c (encode text)
    have hencode : encode (c :: text) = b :: (more ++ encode text) := by
      rw [encode, List.flatMap_cons, hbytes]
      rfl
    rw [hencode, pieces, hpiece, List.drop_left, ih, List.map_cons]

/-- What was written is valid, and is read as it was. -/
theorem decode?_encode (text : List Char) : decode? (encode text) = some text := by
  rw [decode?, pieces_encode]
  induction text with
  | nil => rfl
  | cons c text ih =>
    rw [List.map_cons, List.mapM_cons, ih]
    rfl

end LogCodec.Utf8
