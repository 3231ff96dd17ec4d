import LogCodec.Message.Number
import LogCodec.Proofs.Text.Decimal
import Mathlib.Data.List.TakeWhile

/-! # Inline numbers keep their text

    A token that is stored inline is written again byte for byte.

    - `integerText_of_encodeInteger?`: for integers.
    - `floatText_of_encodeFloat?`: for floats.  The fields of a float survive
      being packed into bits, and a text is put together again from its
      fields. -/

namespace LogCodec.Number

variable {w : Width}

/-! ### Integers -/

/-- An integer in range is kept. -/
theorem toInt_of_ofInt? {value : Int} {v : Variable w} (h : Variable.ofInt? value = some v) :
    v.toInt = value := by
  simp only [Variable.ofInt?] at h
  split at h
  · rename_i hvalue
    obtain rfl := Option.some.inj h
    exact hvalue
  · cases h

theorem integerText_of_encodeInteger? {token : Bytes} {v : Variable w}
    (h : encodeInteger? w token = some v) : integerText v = token := by
  obtain ⟨value, hvalue, hv⟩ := Option.bind_eq_some_iff.1 h
  rw [integerText, toInt_of_ofInt? hv, Decimal.ofInteger_of_integer? hvalue]

/-! ### Floats -/

namespace FloatFields

/-- The digits after the point are some of all digits, and there is one. -/
def HasPoint (f : FloatFields) : Prop := 1 ≤ f.afterPoint ∧ f.afterPoint ≤ f.digitCount

/-- Fields that fit do not overlap in the bits. -/
theorem ofVariable_toVariable {f : FloatFields} (hfits : f.Fits w) (hpoint : f.HasPoint) :
    ofVariable (f.toVariable w) = f := by
  obtain ⟨negative, digits, digitCount, afterPoint⟩ := f
  obtain ⟨hcount, hdigits⟩ := hfits
  obtain ⟨hone, hle⟩ := hpoint
  -- in both widths all fields are numbers below literal bounds
  cases w <;> cases negative <;>
    simp only [ofVariable, toVariable, Width.bits, Width.size, Width.floatCountBits,
      Width.floatDigitsBits, Width.floatDigitsMax, Nat.shiftLeft_eq, Nat.shiftRight_eq_div_pow,
      Nat.one_mul, BitVec.msb_eq_decide, BitVec.toNat_ofNat,
      FloatFields.mk.injEq, decide_eq_true_eq, decide_eq_false_iff_not, Bool.false_eq_true,
      if_true, if_false] at * <;>
    omega

variable {front back : Bytes}

/-- A text is put together again from the fields of its two parts. -/
theorem text_ofParts (negative : Bool) (hne : back ≠ [])
    (hfront : ∀ b ∈ front, Ascii.isDigit b = true) (hback : ∀ b ∈ back, Ascii.isDigit b = true) :
    (ofParts negative front back).Consistent ∧ (ofParts negative front back).HasPoint ∧
      (ofParts negative front back).text =
        (if negative then [0x2D] else []) ++ front ++ 0x2E :: back := by
  have hpos := List.length_pos_iff.2 hne
  have hdigits : ∀ b ∈ front ++ back, Ascii.isDigit b = true := by
    intro b hb
    rcases List.mem_append.1 hb with hb | hb
    · exact hfront b hb
    · exact hback b hb
  obtain ⟨hle, hpad⟩ := Decimal.padded_digits_ofDigits (by simp [hne]) hdigits
  rw [List.length_append] at hle hpad
  refine ⟨⟨hle, Nat.le_add_left ..⟩, ⟨hpos, Nat.le_add_left ..⟩, ?_⟩
  have hcut : front.length + back.length - back.length = front.length := by omega
  simp only [text, ofParts]
  rw [hpad, hcut, List.take_left, List.drop_left]
  rfl

/-- The fields of an unsigned text. -/
theorem text_of_ofUnsigned? {negative : Bool} {text : Bytes} {f : FloatFields}
    (h : ofUnsigned? negative text = some f) :
    f.Consistent ∧ f.HasPoint ∧ f.text = (if negative then [0x2D] else []) ++ text := by
  unfold ofUnsigned? at h
  split at h
  · rename_i back hdrop
    split at h
    · rename_i hback
      obtain rfl := Option.some.inj h
      have htext : text = text.takeWhile Ascii.isDigit ++ 0x2E :: back := by
        rw [← hdrop, List.takeWhile_append_dropWhile]
      obtain ⟨hc, hp, ht⟩ := text_ofParts negative hback.1
        (fun _ hb => List.mem_takeWhile_imp hb) (List.all_eq_true.1 hback.2)
      refine ⟨hc, hp, ?_⟩
      rw [ht, List.append_assoc, ← htext]
    · cases h
  · cases h

theorem text_of_ofText? {text : Bytes} {f : FloatFields} (h : ofText? text = some f) :
    f.Consistent ∧ f.HasPoint ∧ f.text = text := by
  unfold ofText? at h
  split at h
  · exact text_of_ofUnsigned? h
  · exact text_of_ofUnsigned? h

end FloatFields

theorem floatText_of_encodeFloat? {token : Bytes} {v : Variable w}
    (h : encodeFloat? w token = some v) : floatText v = .ok token := by
  simp only [encodeFloat?, Option.map_eq_some_iff, Option.filter_eq_some_iff,
    decide_eq_true_eq] at h
  obtain ⟨f, ⟨hf, hfits⟩, rfl⟩ := h
  obtain ⟨hconsistent, hpoint, htext⟩ := FloatFields.text_of_ofText? hf
  rw [floatText, FloatFields.ofVariable_toVariable hfits hpoint]
  simp only [if_pos hconsistent, htext]

end LogCodec.Number
