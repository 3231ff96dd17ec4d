import LogCodec.Proofs.Json.OfStrings
import LogCodec.Proofs.Text.Decimal
import LogCodec.Proofs.Text.Utf8
import LogCodec.Stream.Preamble
import Mathlib.Tactic.IntervalCases

/-! # Metadata is read as it was written

    The metadata of a preamble is an object of strings in UTF-8.  What is left
    to show is that the four keys are told apart, and that the text of the
    reference timestamp is read as that number.

    - `readReference_toString`: for the reference timestamp.
    - `ofMetadata_metadata`: for the preamble.  An eight-byte stream has no
      reference timestamp, and zero is read for it. -/

namespace LogCodec

/-! ### Texts of integers -/

namespace Decimal

theorem utf8EncodeChar_digitChar {d : Nat} (h : d < 10) :
    String.utf8EncodeChar (Nat.digitChar d) = [digit d] := by
  have hall : ∀ d < 10, String.utf8EncodeChar (Nat.digitChar d) = [digit d] := by decide
  exact hall d h

/-- The bytes of the digits of a number. -/
theorem encode_toDigits (n : Nat) : Utf8.encode (Nat.toDigits 10 n) = digits n := by
  induction n using Nat.strongRecOn with
  | ind n ih =>
    rcases Nat.lt_or_ge n 10 with h | h
    · rw [Nat.toDigits_of_lt_base h, digits_of_lt h, Utf8.encode, List.flatMap_singleton,
        utf8EncodeChar_digitChar h]
    · -- the last digit, behind the digits of the rest
      have hdigit := utf8EncodeChar_digitChar (Nat.mod_lt n (by decide : 0 < 10))
      have hfront := ih (n / 10) (by omega)
      rw [Utf8.encode] at hfront
      rw [Nat.toDigits_of_base_le (by decide) h, digits_of_le h, Utf8.encode,
        List.flatMap_append, List.flatMap_singleton, hfront, hdigit]

theorem toList_toString (i : Int) :
    (toString i).toList =
      if i < 0 then '-' :: Nat.toDigits 10 i.natAbs else Nat.toDigits 10 i.natAbs := by
  rw [Int.toString_eq_repr, Int.repr_eq_if]
  by_cases h : i < 0
  · have habs : (-i).toNat = i.natAbs := by omega
    rw [if_neg (by omega), if_pos h, String.toList_append, Nat.toList_repr, habs]
    rfl
  · have habs : i.toNat = i.natAbs := by omega
    rw [if_pos (by omega), if_neg h, Nat.toList_repr, habs]

/-- The bytes of the text of an integer. -/
theorem encode_toString (i : Int) : Utf8.encode (toString i).toList = ofInteger i := by
  rw [toList_toString, ofInteger]
  split
  · rw [← encode_toDigits]
    rfl
  · exact encode_toDigits _

end Decimal

/-! ### Texts without blanks -/

namespace Blank

theorem isBlank_of_isDigit {c : Char} (h : c.isDigit = true) : isBlank c = false := by
  have hrange : 0x30 ≤ c.toNat ∧ c.toNat ≤ 0x39 := by
    simp only [Char.isDigit, Bool.and_eq_true, decide_eq_true_eq, ge_iff_le,
      UInt32.le_iff_toNat_le] at h
    exact h
  obtain ⟨hlow, hhigh⟩ := hrange
  unfold isBlank
  generalize c.toNat = n at hlow hhigh
  -- ten digits, none of them a blank
  interval_cases n <;> rfl

theorem trim_of_forall {text : List Char} (h : ∀ c ∈ text, isBlank c = false) :
    trim text = text := by
  have hdrop (text : List Char) (h : ∀ c ∈ text, isBlank c = false) :
      text.dropWhile isBlank = text := by
    cases text with
    | nil => rfl
    | cons c text => rw [List.dropWhile_cons_of_neg (by simp [h c (List.mem_cons_self ..)])]
  rw [trim, hdrop text h, hdrop text.reverse (by simpa using h), List.reverse_reverse]

theorem trim_toString (i : Int) : trim (toString i).toList = (toString i).toList := by
  have hdigits : ∀ c ∈ Nat.toDigits 10 i.natAbs, isBlank c = false := fun c hc =>
    isBlank_of_isDigit (Nat.isDigit_of_mem_toDigits (by decide) (by decide) hc)
  apply trim_of_forall
  rw [Decimal.toList_toString]
  split
  · exact List.forall_mem_cons.2 ⟨by decide, hdigits⟩
  · exact hdigits

end Blank

namespace Preamble

/-! ### Reference timestamps -/

/-- The reference timestamp is read as it was written. -/
theorem readReference_toString (value : Int64) :
    readReference (toString value.toInt) = .ok value := by
  rw [readReference, Blank.trim_toString, Decimal.encode_toString, Decimal.readInt64_ofInteger]

/-! ### Strings of the metadata -/

/-- The preamble that is read from the metadata of `p`. -/
def kept (p : Preamble) : Preamble :=
  { p with
    reference :=
      match p.width with
      | .fourByte => p.reference
      | .eightByte => 0 }

/-- The four keys are told apart. -/
theorem strings?_metadata (p : Preamble) :
    strings? p.metadata =
      some (p.info,
        match p.width with
        | .fourByte => some (toString p.reference.toInt)
        | .eightByte => none) := by
  obtain ⟨width, ⟨pattern, patternSyntax, timeZone⟩, reference⟩ := p
  rw [strings?, metadata, Utf8.decode?_encode, Option.bind_some, Json.parse?_ofStrings]
  cases width with
  | fourByte =>
    show some ((⟨String.ofList pattern.toList, String.ofList patternSyntax.toList,
      String.ofList timeZone.toList⟩ : TimestampInfo),
      some (String.ofList (toString reference.toInt).toList)) = _
    simp only [String.ofList_toList]
  | eightByte =>
    show some ((⟨String.ofList pattern.toList, String.ofList patternSyntax.toList,
      String.ofList timeZone.toList⟩ : TimestampInfo), none) = _
    simp only [String.ofList_toList]

/-- The metadata of a preamble is read as that preamble. -/
theorem ofMetadata_metadata (p : Preamble) : ofMetadata p.width p.metadata = .ok p.kept := by
  rw [ofMetadata, strings?_metadata, kept]
  cases hw : p.width with
  | fourByte => simp only [readReference_toString, Except.map]
  | eightByte => rfl

end Preamble

end LogCodec
