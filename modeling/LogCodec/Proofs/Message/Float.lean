import LogCodec.Proofs.Message.RoundTrip
import Mathlib.Data.Nat.Bitwise

/-! # Inline floats

    A float is stored by its fields: the sign, the digits read as one integer, how many
    they are, and how many of them stand behind the point.

    * `FloatText`: the texts that have such fields within the limits of a width, and
      `isSome_encodeFloat?_iff`: these are the texts that are stored.
    * `FloatOf`: the texts whose fields are those of a variable, and
      `floatText_eq_ok_iff`: these are the texts that are written.
    * `FloatFields.ofText?_text`, `FloatFields.toVariable_ofVariable`: fields are read off
      their text, and are packed into the bits that they were taken from.
    * `encodeFloat?_of_floatText`: whatever bits were rendered are stored again, but for
      those that no field uses. -/

namespace LogCodec

/-! ### Digits -/

/-- A text is all digits, or there is a first byte that is none. -/
theorem Ascii.digits_or_stop (text : Bytes) :
    (∀ b ∈ text, isDigit b = true) ∨
      ∃ front b rest, text = front ++ b :: rest ∧ (∀ c ∈ front, isDigit c = true) ∧
        ¬isDigit b = true := by
  induction text with
  | nil => exact .inl (by simp)
  | cons b text ih =>
    by_cases hb : isDigit b = true
    · rcases ih with hall | ⟨front, c, rest, rfl, hfront, hc⟩
      · exact .inl (List.forall_mem_cons.2 ⟨hb, hall⟩)
      · exact .inr ⟨b :: front, c, rest, rfl, List.forall_mem_cons.2 ⟨hb, hfront⟩, hc⟩
    · exact .inr ⟨[], b, text, rfl, by simp, hb⟩

theorem Decimal.ofDigits_padded (count : Nat) (text : Bytes) :
    ofDigits (padded count text) = ofDigits text := by
  rw [padded]
  induction count - text.length with
  | zero => rfl
  | succ n ih =>
    rw [List.replicate_succ, List.cons_append]
    exact ih

theorem Decimal.length_padded {count : Nat} {text : Bytes} (h : text.length ≤ count) :
    (padded count text).length = count := by
  simp [padded, Nat.sub_add_cancel h]

theorem Decimal.isDigit_of_mem_padded {count n : Nat} :
    ∀ b ∈ padded count (digits n), Ascii.isDigit b = true := by
  intro b hb
  rcases List.mem_append.1 hb with hzero | hdigit
  · rw [List.eq_of_mem_replicate hzero]
    rfl
  · exact isDigit_of_mem_digits b hdigit

/-- A number below a power of ten has no more digits than the exponent says. -/
theorem Decimal.length_digits_le {n k : Nat} (hk : 0 < k) (h : n < 10 ^ k) :
    (digits n).length ≤ k := by
  induction k, hk using Nat.le_induction generalizing n with
  | base =>
    rw [digits_of_lt h]
    exact Nat.le_refl 1
  | succ k hk ih =>
    by_cases hlt : n < 10
    · rw [digits_of_lt hlt]
      exact Nat.le_add_left 1 k
    · have hdiv : n / 10 < 10 ^ k := by
        rw [Nat.pow_succ] at h
        exact Nat.div_lt_of_lt_mul (Nat.mul_comm .. ▸ h)
      rw [digits_of_le (by omega), List.length_append, List.length_singleton]
      exact Nat.add_le_add_right (ih hdiv) 1

/-- As many digits as these have no greater value. -/
theorem Decimal.ofDigits_lt {text : Bytes} (h : ∀ b ∈ text, Ascii.isDigit b = true) :
    ofDigits text < 10 ^ text.length := by
  induction text using List.reverseRecOn with
  | nil => exact Nat.one_pos
  | append_singleton text b ih =>
    have hlt := digitValue_lt (h b (by simp))
    have hfront := ih fun c hc => h c (by simp [hc])
    rw [ofDigits_append_singleton, List.length_append, List.length_singleton, Nat.pow_succ]
    omega

namespace Number

variable {w : Width}

/-! ### Texts of floats -/

/-- The texts that are stored as floats: a minus sign or none, and digits with one point
    among them.  At least one digit stands behind the point, there are no more digits than
    the width allows, and the integer that they are without the point fits its bits. -/
inductive FloatText (w : Width) : Bytes → Prop where
  | intro (negative : Bool) {front back : Bytes} :
    (∀ b ∈ front, Ascii.isDigit b = true) → (∀ b ∈ back, Ascii.isDigit b = true) →
    back ≠ [] → front.length + back.length ≤ w.floatDigitsMax →
    Decimal.ofDigits (front ++ back) < 2 ^ w.floatDigitsBits →
    FloatText w ((if negative then [0x2D] else []) ++ front ++ 0x2E :: back)

namespace FloatFields

section

variable {front back : Bytes} (hfront : ∀ b ∈ front, Ascii.isDigit b = true)

include hfront

theorem takeWhile_point : (front ++ 0x2E :: back).takeWhile Ascii.isDigit = front := by
  rw [List.takeWhile_append_of_pos hfront, List.takeWhile_cons_of_neg (by decide),
    List.append_nil]

theorem dropWhile_point :
    (front ++ 0x2E :: back).dropWhile Ascii.isDigit = 0x2E :: back := by
  rw [List.dropWhile_append_of_pos hfront, List.dropWhile_cons_of_neg (by decide)]

/-- Digits around a point are read as their fields, if there are any behind it. -/
theorem ofUnsigned?_point (negative : Bool) (hback : ∀ b ∈ back, Ascii.isDigit b = true) :
    ofUnsigned? negative (front ++ 0x2E :: back) =
      if back ≠ [] then some (ofParts negative front back) else none := by
  unfold ofUnsigned?
  rw [dropWhile_point hfront, takeWhile_point hfront]
  simp only [List.all_eq_true.2 hback, and_true]

theorem ofText?_point (negative : Bool) (hback : ∀ b ∈ back, Ascii.isDigit b = true)
    (hne : back ≠ []) :
    ofText? ((if negative then [0x2D] else []) ++ front ++ 0x2E :: back) =
      some (ofParts negative front back) := by
  have hunsigned := ofUnsigned?_point hfront negative hback
  rw [if_pos hne] at hunsigned
  cases negative with
  | true => exact hunsigned
  | false =>
    show ofText? (front ++ 0x2E :: back) = _
    -- neither a digit nor the point is a minus sign
    unfold ofText?
    split
    · rename_i text heq
      cases front with
      | nil => cases heq
      | cons b rest =>
        have hb := hfront b (List.mem_cons_self ..)
        rw [(List.cons.inj heq).1] at hb
        exact absurd hb (by decide)
    · exact hunsigned

end

/-- A text without sign that has fields is digits around a point. -/
theorem exists_of_ofUnsigned? {negative : Bool} {text : Bytes} {f : FloatFields}
    (h : ofUnsigned? negative text = some f) :
    ∃ front back, text = front ++ 0x2E :: back ∧
      (∀ b ∈ front, Ascii.isDigit b = true) ∧ (∀ b ∈ back, Ascii.isDigit b = true) ∧
      back ≠ [] ∧ f = ofParts negative front back := by
  unfold ofUnsigned? at h
  split at h
  · rename_i back hdrop
    obtain ⟨hback, hf⟩ := Option.ite_none_right_eq_some.1 h
    refine ⟨text.takeWhile Ascii.isDigit, back, ?_, fun _ => List.mem_takeWhile_imp,
      List.all_eq_true.1 hback.2, hback.1, (Option.some.inj hf).symm⟩
    rw [← hdrop, List.takeWhile_append_dropWhile]
  · cases h

/-- A text with fields is digits around a point, behind a minus sign or not. -/
theorem exists_of_ofText? {text : Bytes} {f : FloatFields} (h : ofText? text = some f) :
    ∃ front back, text = (if f.negative then [0x2D] else []) ++ front ++ 0x2E :: back ∧
      (∀ b ∈ front, Ascii.isDigit b = true) ∧ (∀ b ∈ back, Ascii.isDigit b = true) ∧
      back ≠ [] ∧ f = ofParts f.negative front back := by
  unfold ofText? at h
  split at h
  · obtain ⟨front, back, rfl, hfront, hback, hne, rfl⟩ := exists_of_ofUnsigned? h
    exact ⟨front, back, rfl, hfront, hback, hne, rfl⟩
  · obtain ⟨front, back, rfl, hfront, hback, hne, rfl⟩ := exists_of_ofUnsigned? h
    exact ⟨front, back, rfl, hfront, hback, hne, rfl⟩

/-- Fields that have a text are those of digits around a point. -/
theorem exists_parts {f : FloatFields} (hconsistent : f.Consistent) (hpoint : f.HasPoint) :
    ∃ front back, (∀ b ∈ front, Ascii.isDigit b = true) ∧
      (∀ b ∈ back, Ascii.isDigit b = true) ∧ back ≠ [] ∧ f = ofParts f.negative front back := by
  obtain ⟨negative, digits, digitCount, afterPoint⟩ := f
  obtain ⟨hcount, hafter⟩ := hconsistent
  have hone : 1 ≤ afterPoint := hpoint.1
  dsimp only at hcount hafter
  have hlength := Decimal.length_padded hcount
  have hall := @Decimal.isDigit_of_mem_padded digitCount digits
  refine ⟨(Decimal.padded digitCount (Decimal.digits digits)).take (digitCount - afterPoint),
    (Decimal.padded digitCount (Decimal.digits digits)).drop (digitCount - afterPoint),
    fun b hb => hall b (List.mem_of_mem_take hb), fun b hb => hall b (List.mem_of_mem_drop hb),
    ?_, ?_⟩
  · rw [ne_eq, List.drop_eq_nil_iff, hlength]
    omega
  · simp only [ofParts, List.take_append_drop, Decimal.ofDigits_padded, Decimal.ofDigits_digits,
      List.length_take, List.length_drop, hlength, FloatFields.mk.injEq, true_and]
    omega

/-- The fields are read off their text. -/
theorem ofText?_text {f : FloatFields} (hconsistent : f.Consistent) (hpoint : f.HasPoint) :
    ofText? f.text = some f := by
  obtain ⟨front, back, hfront, hback, hne, hf⟩ := exists_parts hconsistent hpoint
  obtain ⟨-, -, htext⟩ := text_ofParts f.negative hne hfront hback
  rw [hf, htext]
  exact ofText?_point hfront f.negative hback hne

end FloatFields

theorem encodeFloat?_eq_some_iff {token : Bytes} {v : Variable w} :
    encodeFloat? w token = some v ↔
      ∃ f, FloatFields.ofText? token = some f ∧ f.Fits w ∧ f.toVariable w = v := by
  simp only [encodeFloat?, Option.map_eq_some_iff, Option.filter_eq_some_iff, decide_eq_true_eq,
    and_assoc]

/-- **Which texts are stored as floats.** -/
theorem isSome_encodeFloat?_iff {token : Bytes} :
    (encodeFloat? w token).isSome = true ↔ FloatText w token := by
  rw [Option.isSome_iff_exists]
  constructor
  · intro h
    obtain ⟨v, hv⟩ := h
    obtain ⟨f, hf, ⟨hcount, hdigits⟩, -⟩ := encodeFloat?_eq_some_iff.1 hv
    obtain ⟨front, back, rfl, hfront, hback, hne, hparts⟩ := FloatFields.exists_of_ofText? hf
    rw [hparts] at hcount hdigits
    rw [Nat.one_shiftLeft] at hdigits
    exact .intro f.negative hfront hback hne hcount hdigits
  · intro h
    cases h with
    | intro negative hfront hback hne hcount hdigits =>
      refine ⟨_, encodeFloat?_eq_some_iff.2
        ⟨_, FloatFields.ofText?_point hfront negative hback hne, ⟨hcount, ?_⟩, rfl⟩⟩
      rw [Nat.one_shiftLeft]
      exact hdigits

/-! ### Bits of a float -/

/-- The variable in which `size` bits are set, from bit `low` on. -/
def bitsFrom (w : Width) (low size : Nat) : Variable w :=
  BitVec.ofNat w.bits ((2 ^ size - 1) <<< low)

/-- The bits of the sign, of the digits, and of the two counts. -/
def floatBits (w : Width) : Variable w :=
  bitsFrom w (w.bits - 1) 1 ||| bitsFrom w (2 * w.floatCountBits) w.floatDigitsBits |||
    bitsFrom w w.floatCountBits w.floatCountBits ||| bitsFrom w 0 w.floatCountBits

/-- In four bytes these are all bits. -/
theorem and_floatBits_fourByte (v : Variable .fourByte) : v &&& floatBits .fourByte = v := by
  have hall : floatBits .fourByte = BitVec.allOnes _ := by decide
  rw [hall, BitVec.and_allOnes]

/-- In eight bytes there is one bit more, behind the sign. -/
theorem toNat_and_floatBits_eightByte (v : Variable .eightByte) :
    (v &&& floatBits .eightByte).toNat =
      v.toNat / 2 ^ 63 % 2 * 2 ^ 63 + v.toNat % 2 ^ 62 := by
  have hbits : (floatBits .eightByte).toNat = 2 ^ 63 ||| (2 ^ 62 - 1) := by decide
  have hlow : v.toNat % 2 ^ 62 < 2 ^ 63 := by omega
  rw [BitVec.toNat_and, hbits, Nat.and_or_distrib_left, Nat.and_two_pow_sub_one_eq_mod,
    Nat.and_two_pow, Nat.toNat_testBit, Nat.mul_comm _ (2 ^ 63),
    Nat.two_pow_add_eq_or_of_lt hlow]

namespace FloatFields

variable (v : Variable w)

theorem fits_ofVariable : (ofVariable v).Fits w := by
  have hdigits : 0 < 1 <<< w.floatDigitsBits := by cases w <;> decide
  refine ⟨?_, Nat.mod_lt _ hdigits⟩
  -- each count has just the bits for the most digits that there may be
  have hmax : 1 <<< w.floatCountBits = w.floatDigitsMax := by cases w <;> rfl
  have hpos : 0 < w.floatDigitsMax := by cases w <;> decide
  have hlt := Nat.mod_lt (v.toNat >>> w.floatCountBits) hpos
  rw [← hmax] at hlt ⊢
  exact hlt

theorem hasPoint_ofVariable (h : (ofVariable v).Consistent) : (ofVariable v).HasPoint :=
  ⟨Nat.le_add_left .., h.2⟩

/-- The sign stands in the highest bit. -/
theorem sign_ofVariable : (if (ofVariable v).negative then 1 <<< (w.bits - 1) else 0) =
    v.toNat / 2 ^ (w.bits - 1) * 2 ^ (w.bits - 1) := by
  have hpos : 0 < w.bits := by cases w <;> decide
  have hlt := v.isLt
  have hdouble : 2 ^ w.bits = 2 ^ (w.bits - 1) * 2 := by
    rw [← Nat.pow_succ, Nat.succ_eq_add_one, Nat.sub_add_cancel hpos]
  simp only [ofVariable, BitVec.msb_eq_decide, decide_eq_true_eq, Nat.one_shiftLeft]
  by_cases hneg : 2 ^ (w.bits - 1) ≤ v.toNat
  · rw [if_pos hneg, Nat.div_eq_of_lt_le (k := 1) (by omega) (by omega), Nat.one_mul]
  · rw [if_neg hneg, Nat.div_eq_of_lt (by omega), Nat.zero_mul]

/-- The fields are packed into the bits that they were taken from. -/
theorem toVariable_ofVariable : (ofVariable v).toVariable w = v &&& floatBits w := by
  apply BitVec.eq_of_toNat_eq
  have hlt := v.isLt
  rw [toVariable, sign_ofVariable]
  cases w with
  | fourByte =>
    rw [and_floatBits_fourByte]
    simp only [ofVariable, Width.bits, Width.size, Width.floatCountBits, Width.floatDigitsBits,
      Nat.shiftLeft_eq, Nat.shiftRight_eq_div_pow, Nat.one_mul, BitVec.toNat_ofNat] at hlt ⊢
    omega
  | eightByte =>
    rw [toNat_and_floatBits_eightByte]
    simp only [ofVariable, Width.bits, Width.size, Width.floatCountBits, Width.floatDigitsBits,
      Nat.shiftLeft_eq, Nat.shiftRight_eq_div_pow, Nat.one_mul, BitVec.toNat_ofNat] at hlt ⊢
    omega

end FloatFields

/-- The texts of a float variable: a minus sign or none, and digits with one point among
    them.  What the bits of the variable say is whether there is a sign, the integer that the
    digits are without the point, how many they are, and how many of them stand behind the
    point. -/
inductive FloatOf (v : Variable w) : Bytes → Prop where
  | intro {negative : Bool} {front back : Bytes} :
    (∀ b ∈ front, Ascii.isDigit b = true) → (∀ b ∈ back, Ascii.isDigit b = true) → back ≠ [] →
    FloatFields.ofVariable v =
      ⟨negative, Decimal.ofDigits (front ++ back), front.length + back.length, back.length⟩ →
    FloatOf v ((if negative then [0x2D] else []) ++ front ++ 0x2E :: back)

/-- **What is written for a float** is its text. -/
theorem floatText_eq_ok_iff {v : Variable w} {text : Bytes} :
    floatText v = .ok text ↔ FloatOf v text := by
  constructor
  · intro h
    unfold floatText at h
    dsimp only at h
    split at h
    · rename_i hconsistent
      have hpoint := FloatFields.hasPoint_ofVariable v hconsistent
      obtain ⟨front, back, hfront, hback, hne, hparts⟩ :=
        FloatFields.exists_parts hconsistent hpoint
      obtain ⟨-, -, htext⟩ :=
        FloatFields.text_ofParts (FloatFields.ofVariable v).negative hne hfront hback
      rw [← Except.ok.inj h, hparts, htext]
      exact .intro hfront hback hne hparts
    · cases h
  · intro h
    cases h with
    | @intro negative front back hfront hback hne hparts =>
      obtain ⟨hconsistent, -, htext⟩ := FloatFields.text_ofParts negative hne hfront hback
      have hfields : FloatFields.ofVariable v = FloatFields.ofParts negative front back := hparts
      simp only [floatText, hfields, if_pos hconsistent, htext]

/-- There is one just when the variable has at most as many digits as it says, and at most
    these stand behind the point. -/
theorem exists_floatOf_iff {v : Variable w} :
    (∃ text, FloatOf v text) ↔
      (FloatFields.ofVariable v).digits < 10 ^ (FloatFields.ofVariable v).digitCount ∧
        (FloatFields.ofVariable v).afterPoint ≤ (FloatFields.ofVariable v).digitCount := by
  constructor
  · intro h
    obtain ⟨text, h⟩ := h
    cases h with
    | @intro negative front back hfront hback hne hparts =>
      have hdigits : ∀ b ∈ front ++ back, Ascii.isDigit b = true := by
        intro b hb
        rcases List.mem_append.1 hb with hb | hb
        · exact hfront b hb
        · exact hback b hb
      rw [hparts]
      refine ⟨?_, Nat.le_add_left ..⟩
      rw [← List.length_append]
      exact Decimal.ofDigits_lt hdigits
  · intro h
    have hpos : 0 < (FloatFields.ofVariable v).digitCount := Nat.succ_pos _
    have hconsistent : (FloatFields.ofVariable v).Consistent :=
      ⟨Decimal.length_digits_le hpos h.1, h.2⟩
    exact ⟨(FloatFields.ofVariable v).text, floatText_eq_ok_iff.1 (if_pos hconsistent)⟩

/-- A text that was rendered is stored again, in the bits that say something. -/
theorem encodeFloat?_of_floatText {v : Variable w} {text : Bytes} (h : floatText v = .ok text) :
    encodeFloat? w text = some (v &&& floatBits w) := by
  unfold floatText at h
  dsimp only at h
  split at h
  · rename_i hconsistent
    obtain rfl := Except.ok.inj h
    exact encodeFloat?_eq_some_iff.2 ⟨FloatFields.ofVariable v,
      FloatFields.ofText?_text hconsistent (FloatFields.hasPoint_ofVariable v hconsistent),
      FloatFields.fits_ofVariable v, FloatFields.toVariable_ofVariable v⟩
  · cases h

/-- It is one of the texts that are stored as floats. -/
theorem FloatOf.floatText {v : Variable w} {text : Bytes} (h : FloatOf v text) :
    FloatText w text := by
  apply isSome_encodeFloat?_iff.1
  rw [encodeFloat?_of_floatText (floatText_eq_ok_iff.2 h)]
  rfl

end Number

end LogCodec
