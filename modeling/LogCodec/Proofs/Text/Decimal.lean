import LogCodec.Text.Decimal
import Mathlib.Data.List.Induction
import Mathlib.Tactic.Common

/-! # Decimal texts and their values

    A text of digits is the text of its value with zeros in front, so a text
    without a leading zero is determined by its value.

    - `padded_digits_ofDigits`: what the text of the value lacks is zeros.
    - `ofInteger_of_integer?`: a text that is read as an integer is the text of
      that integer.
    - `readInt64_ofInteger`: the text of a signed 64-bit number is read as that
      number.
    - `Denotes`, `readInt64_eq_ok_iff`: which texts are read as such a number, and as
      which one. -/

namespace LogCodec

theorem Ascii.isDigit_iff {b : UInt8} :
    Ascii.isDigit b = true ↔ 0x30 ≤ b.toNat ∧ b.toNat ≤ 0x39 := by
  simp [Ascii.isDigit, UInt8.le_iff_toNat_le]

namespace Decimal

/-! ### Single digits -/

theorem toNat_digit {d : Nat} (h : d < 10) : (digit d).toNat = 0x30 + d := by
  rw [digit, UInt8.toNat_ofNat']
  omega

theorem isDigit_digit {d : Nat} (h : d < 10) : Ascii.isDigit (digit d) = true := by
  rw [Ascii.isDigit_iff, toNat_digit h]
  omega

theorem digitValue_digit {d : Nat} (h : d < 10) : digitValue (digit d) = d := by
  rw [digitValue, toNat_digit h]
  omega

theorem digitValue_lt {b : UInt8} (h : Ascii.isDigit b = true) : digitValue b < 10 := by
  have := Ascii.isDigit_iff.1 h
  rw [digitValue]
  omega

theorem digit_digitValue {b : UInt8} (h : Ascii.isDigit b = true) : digit (digitValue b) = b := by
  apply UInt8.toNat_inj.1
  have := Ascii.isDigit_iff.1 h
  rw [toNat_digit (digitValue_lt h), digitValue]
  omega

/-! ### Texts of natural numbers -/

theorem digits_of_lt {n : Nat} (h : n < 10) : digits n = [digit n] := by
  rw [digits, if_pos h]

theorem digits_of_le {n : Nat} (h : 10 ≤ n) :
    digits n = digits (n / 10) ++ [digit (n % 10)] := by
  rw [digits, if_neg (by omega)]

theorem digits_ne_nil (n : Nat) : digits n ≠ [] := by
  rcases Nat.lt_or_ge n 10 with h | h
  · simp [digits_of_lt h]
  · simp [digits_of_le h]

theorem isDigit_of_mem_digits {n : Nat} : ∀ b ∈ digits n, Ascii.isDigit b = true := by
  induction n using Nat.strongRecOn with
  | ind n ih =>
    rcases Nat.lt_or_ge n 10 with h | h
    · simp [digits_of_lt h, isDigit_digit h]
    · intro b hb
      rw [digits_of_le h, List.mem_append, List.mem_singleton] at hb
      rcases hb with hb | rfl
      · exact ih (n / 10) (by omega) b hb
      · exact isDigit_digit (Nat.mod_lt _ (by omega))

theorem ofDigits_append_singleton (text : Bytes) (b : UInt8) :
    ofDigits (text ++ [b]) = ofDigits text * 10 + digitValue b := by
  simp [ofDigits]

theorem ofDigits_digits (n : Nat) : ofDigits (digits n) = n := by
  induction n using Nat.strongRecOn with
  | ind n ih =>
    rcases Nat.lt_or_ge n 10 with h | h
    · simp [digits_of_lt h, ofDigits, digitValue_digit h]
    · rw [digits_of_le h, ofDigits_append_singleton, ih (n / 10) (by omega),
        digitValue_digit (Nat.mod_lt _ (by omega))]
      omega

/-- A value with one more digit has a text with one more digit. -/
theorem digits_mul_add {n : Nat} {b : UInt8} (hn : 0 < n) (hb : Ascii.isDigit b = true) :
    digits (n * 10 + digitValue b) = digits n ++ [b] := by
  have hlt := digitValue_lt hb
  rw [digits_of_le (by omega)]
  congr 1
  · congr 1
    omega
  · rw [show (n * 10 + digitValue b) % 10 = digitValue b by omega, digit_digitValue hb]

theorem padded_succ_append (count : Nat) (text : Bytes) (b : UInt8) :
    padded (count + 1) (text ++ [b]) = padded count text ++ [b] := by
  simp [padded]

/-- The text of the value of some digits is no longer than they are, and zeros
    are all that it lacks. -/
theorem padded_digits_ofDigits {text : Bytes} (hne : text ≠ [])
    (hd : ∀ b ∈ text, Ascii.isDigit b = true) :
    (digits (ofDigits text)).length ≤ text.length ∧
      padded text.length (digits (ofDigits text)) = text := by
  induction text using List.reverseRecOn with
  | nil => exact absurd rfl hne
  | append_singleton text b ih =>
    have hb : Ascii.isDigit b = true := hd b (by simp)
    rw [ofDigits_append_singleton, List.length_append, List.length_singleton]
    by_cases hnil : text = []
    · subst hnil
      simp [ofDigits, digits_of_lt (digitValue_lt hb), digit_digitValue hb, padded]
    · obtain ⟨hle, hpad⟩ := ih hnil fun c hc => hd c (by simp [hc])
      rcases Nat.eq_zero_or_pos (ofDigits text) with hzero | hpos
      · -- the digits so far are zeros
        rw [hzero] at hpad ⊢
        have hlen := List.length_pos_iff.2 hnil
        have hzeros : padded text.length [] = text := by
          rw [← hpad]
          simp [padded, digits_of_lt, digit, ← List.replicate_succ', Nat.sub_add_cancel hlen]
        rw [Nat.zero_mul, Nat.zero_add, digits_of_lt (digitValue_lt hb), digit_digitValue hb]
        refine ⟨by simp, ?_⟩
        have := padded_succ_append text.length [] b
        rwa [hzeros] at this
      · rw [digits_mul_add hpos hb, padded_succ_append, hpad]
        refine ⟨?_, rfl⟩
        rw [List.length_append, List.length_singleton]
        omega

/-- A text that is read as a natural number is the text of that number. -/
theorem digits_of_canonical? {text : Bytes} {n : Nat} (h : canonical? text = some n) :
    digits n = text := by
  unfold canonical? at h
  split at h
  · rename_i hc
    obtain ⟨hne, hall, hlead⟩ := hc
    obtain rfl := Option.some.inj h
    obtain ⟨hle, hpad⟩ := padded_digits_ofDigits hne (List.all_eq_true.1 hall)
    have hpos := List.length_pos_iff.2 (digits_ne_nil (ofDigits text))
    by_cases hlen : (digits (ofDigits text)).length = text.length
    · rw [padded, hlen, Nat.sub_self] at hpad
      exact hpad
    · -- then there would be a leading zero in front of other digits
      have hhead : text.head? = some 0x30 := by
        rw [← hpad, padded, List.head?_append, List.head?_replicate, if_neg (by omega)]
        rfl
      have := hlead hhead
      omega
  · cases h

/-! ### Texts of integers -/

/-- A text that is read as an integer is the text of that integer. -/
theorem ofInteger_of_integer? {text : Bytes} {i : Int} (h : integer? text = some i) :
    ofInteger i = text := by
  unfold integer? at h
  split at h
  · -- behind a minus sign stands no zero
    rename_i rest
    simp only [Option.map_eq_some_iff, Option.filter_eq_some_iff, decide_eq_true_eq] at h
    obtain ⟨n, ⟨hn, hne⟩, rfl⟩ := h
    rw [ofInteger, if_pos (by omega), Int.natAbs_neg, Int.natAbs_natCast,
      digits_of_canonical? hn]
  · simp only [Option.map_eq_some_iff] at h
    obtain ⟨n, hn, rfl⟩ := h
    rw [ofInteger, if_neg (by omega), Int.natAbs_natCast, digits_of_canonical? hn]

/-! ### Reading signed 64-bit numbers -/

theorem le_foldl_digits (n : Nat) (text : Bytes) :
    n ≤ text.foldl (fun n b => n * 10 + digitValue b) n := by
  induction text generalizing n with
  | nil => exact Nat.le_refl n
  | cons b rest ih => exact Nat.le_trans (by omega) (ih (n * 10 + digitValue b))

/-- Digits whose value stays within the limit are all read. -/
theorem readDigits_eq_ok {limit n : Nat} {overflow : Fault} {text : Bytes}
    (hd : ∀ b ∈ text, Ascii.isDigit b = true)
    (hle : text.foldl (fun n b => n * 10 + digitValue b) n ≤ limit) :
    readDigits limit overflow n text =
      .ok (text.foldl (fun n b => n * 10 + digitValue b) n) := by
  induction text generalizing n with
  | nil => rfl
  | cons b rest ih =>
    rw [List.foldl_cons] at hle ⊢
    have := le_foldl_digits (n * 10 + digitValue b) rest
    rw [readDigits, if_pos (hd b (by simp)), if_pos (by omega)]
    exact ih (fun c hc => hd c (by simp [hc])) hle

theorem readDigits_digits (overflow : Fault) {limit n : Nat} (h : n ≤ limit) :
    readDigits limit overflow 0 (digits n) = .ok n := by
  have hv : (digits n).foldl (fun n b => n * 10 + digitValue b) 0 = n := ofDigits_digits n
  rw [readDigits_eq_ok isDigit_of_mem_digits (by rw [hv]; exact h), hv]

/-- A text that starts with a digit has no sign. -/
theorem readInt64_of_isDigit {b : UInt8} {rest : Bytes} (hb : Ascii.isDigit b = true) :
    readInt64 (b :: rest) =
      (readDigits int64Max.toNat .tooLarge 0 (b :: rest)).map fun n : Nat => Int64.ofInt n := by
  have hplus : b ≠ 0x2B := by
    rintro rfl
    exact absurd hb (by decide)
  have hminus : b ≠ 0x2D := by
    rintro rfl
    exact absurd hb (by decide)
  rw [readInt64] <;> simp [hplus, hminus]

/-- The text of a signed 64-bit number is read as that number. -/
theorem readInt64_ofInteger (value : Int64) : readInt64 (ofInteger value.toInt) = .ok value := by
  have hlo : int64Min ≤ value.toInt := value.le_toInt
  have hhi : value.toInt ≤ int64Max := Int.le_of_lt_add_one value.toInt_lt
  obtain ⟨b, rest, hcons⟩ := List.exists_cons_of_ne_nil (digits_ne_nil value.toInt.natAbs)
  -- the limits differ, since there is one more negative number
  by_cases hneg : value.toInt < 0
  · have hread : readDigits int64Min.natAbs .tooSmall 0 (b :: rest) = .ok value.toInt.natAbs := by
      rw [← hcons]
      exact readDigits_digits _ (by unfold int64Min at *; omega)
    have habs : -((value.toInt.natAbs : Nat) : Int) = value.toInt := by omega
    rw [ofInteger, if_pos hneg, hcons]
    simp only [readInt64, hread, Except.map, habs, Int64.ofInt_toInt]
  · have hread : readDigits int64Max.toNat .tooLarge 0 (b :: rest) = .ok value.toInt.natAbs := by
      rw [← hcons]
      exact readDigits_digits _ (by unfold int64Max at *; omega)
    have habs : ((value.toInt.natAbs : Nat) : Int) = value.toInt := by omega
    have hb : Ascii.isDigit b = true := isDigit_of_mem_digits b (by rw [hcons]; simp)
    rw [ofInteger, if_neg hneg, hcons, readInt64_of_isDigit hb, hread]
    simp only [Except.map, habs, Int64.ofInt_toInt]

/-! ### What texts denote -/

/-- The text is that of a signed 64-bit number: digits, of which leading zeros are
    allowed, behind one sign or none. -/
inductive Denotes : Bytes → Int64 → Prop where
  | plain {text : Bytes} {value : Int64} :
    text ≠ [] → (∀ b ∈ text, Ascii.isDigit b = true) → value.toInt = ofDigits text →
    Denotes text value
  | plus {text : Bytes} {value : Int64} :
    text ≠ [] → (∀ b ∈ text, Ascii.isDigit b = true) → value.toInt = ofDigits text →
    Denotes (0x2B :: text) value
  | minus {text : Bytes} {value : Int64} :
    text ≠ [] → (∀ b ∈ text, Ascii.isDigit b = true) → value.toInt = -(ofDigits text : Int) →
    Denotes (0x2D :: text) value

/-- Nothing but digits is read, and no number beyond the limit. -/
theorem digits_of_readDigits {limit n m : Nat} {overflow : Fault} {text : Bytes} (hn : n ≤ limit)
    (h : readDigits limit overflow n text = .ok m) :
    (∀ b ∈ text, Ascii.isDigit b = true) ∧
      text.foldl (fun n b => n * 10 + digitValue b) n = m ∧ m ≤ limit := by
  induction text generalizing n with
  | nil =>
    cases h
    exact ⟨fun _ hb => absurd hb List.not_mem_nil, rfl, hn⟩
  | cons b rest ih =>
    rw [readDigits] at h
    split at h
    case isFalse => cases h
    case isTrue hb =>
      split at h
      case isFalse => cases h
      case isTrue hle =>
        obtain ⟨hrest, hvalue, hlimit⟩ := ih hle h
        refine ⟨?_, hvalue, hlimit⟩
        intro c hc
        rcases List.mem_cons.1 hc with rfl | hc
        · exact hb
        · exact hrest c hc

theorem readDigits_eq_ok_iff {limit m : Nat} {overflow : Fault} {text : Bytes} :
    readDigits limit overflow 0 text = .ok m ↔
      (∀ b ∈ text, Ascii.isDigit b = true) ∧ ofDigits text = m ∧ m ≤ limit := by
  constructor
  · exact digits_of_readDigits (Nat.zero_le limit)
  · intro h
    obtain ⟨hdigits, hvalue, hlimit⟩ := h
    rw [readDigits_eq_ok hdigits (by rw [ofDigits] at hvalue; omega)]
    exact congrArg Except.ok hvalue

/-- A number in the range of the type is kept. -/
theorem ofInt_eq_iff {i : Int} (hlo : int64Min ≤ i) (hhi : i ≤ int64Max) {value : Int64} :
    Int64.ofInt i = value ↔ value.toInt = i := by
  have hkept : (Int64.ofInt i).toInt = i := by
    apply Int64.toInt_ofInt_of_le hlo
    unfold int64Max at hhi
    omega
  constructor
  · intro h
    rw [← h, hkept]
  · intro h
    rw [← h, Int64.ofInt_toInt]

/-- A number with a sign, or none, that goes into the range of the type. -/
theorem map_readDigits_eq_ok_iff {limit : Nat} {overflow : Fault} {text : Bytes} {sign : Int}
    (hrange : ∀ n : Nat, n ≤ limit → int64Min ≤ sign * n ∧ sign * n ≤ int64Max)
    {value : Int64} (hlimit : value.toInt = sign * ofDigits text → ofDigits text ≤ limit) :
    (readDigits limit overflow 0 text).map (fun n : Nat => Int64.ofInt (sign * n)) = .ok value ↔
      (∀ b ∈ text, Ascii.isDigit b = true) ∧ value.toInt = sign * ofDigits text := by
  constructor
  · intro h
    cases hread : readDigits limit overflow 0 text with
    | error fault =>
      rw [hread] at h
      cases h
    | ok n =>
      rw [hread] at h
      obtain ⟨hdigits, rfl, hle⟩ := readDigits_eq_ok_iff.1 hread
      have hvalue := Except.ok.inj h
      obtain ⟨hlo, hhi⟩ := hrange _ hle
      exact ⟨hdigits, (ofInt_eq_iff hlo hhi).1 hvalue⟩
  · intro h
    obtain ⟨hdigits, hvalue⟩ := h
    have hle := hlimit hvalue
    obtain ⟨hlo, hhi⟩ := hrange _ hle
    rw [readDigits_eq_ok_iff.2 ⟨hdigits, rfl, hle⟩]
    exact congrArg Except.ok ((ofInt_eq_iff hlo hhi).2 hvalue)

section

variable {text : Bytes} {value : Int64}

/-- Digits behind no sign or behind a plus sign. -/
theorem map_readDigits_positive :
    (readDigits int64Max.toNat .tooLarge 0 text).map (fun n : Nat => Int64.ofInt n) = .ok value ↔
      (∀ b ∈ text, Ascii.isDigit b = true) ∧ value.toInt = ofDigits text := by
  have hhi : value.toInt ≤ int64Max := Int.le_of_lt_add_one value.toInt_lt
  have hiff := @map_readDigits_eq_ok_iff int64Max.toNat .tooLarge text 1
    (by intro n hn; unfold int64Min int64Max at *; omega) value
    (by unfold int64Max at *; omega)
  simpa only [Int.one_mul] using hiff

/-- Digits behind a minus sign. -/
theorem map_readDigits_negative :
    (readDigits int64Min.natAbs .tooSmall 0 text).map (fun n : Nat => Int64.ofInt (-n)) =
        .ok value ↔
      (∀ b ∈ text, Ascii.isDigit b = true) ∧ value.toInt = -(ofDigits text : Int) := by
  have hlo : int64Min ≤ value.toInt := value.le_toInt
  have hiff := @map_readDigits_eq_ok_iff int64Min.natAbs .tooSmall text (-1)
    (by intro n hn; unfold int64Min int64Max at *; omega) value
    (by unfold int64Min at *; omega)
  simpa only [Int.neg_mul, Int.one_mul] using hiff

/-- **Reading a number** gives what the text denotes, and fails when it denotes
    nothing. -/
theorem readInt64_eq_ok_iff : readInt64 text = .ok value ↔ Denotes text value := by
  constructor
  · intro h
    unfold readInt64 at h
    split at h
    case h_1 | h_2 | h_3 => cases h
    case h_4 rest hne =>
      obtain ⟨hdigits, hvalue⟩ := map_readDigits_negative.1 h
      exact .minus hne hdigits hvalue
    case h_5 rest hne =>
      obtain ⟨hdigits, hvalue⟩ := map_readDigits_positive.1 h
      exact .plus hne hdigits hvalue
    case h_6 hne _ _ _ _ =>
      obtain ⟨hdigits, hvalue⟩ := map_readDigits_positive.1 h
      exact .plain hne hdigits hvalue
  · intro h
    cases h with
    | plain hne hdigits hvalue =>
      obtain ⟨b, rest, rfl⟩ := List.exists_cons_of_ne_nil hne
      rw [readInt64_of_isDigit (hdigits b (List.mem_cons_self ..))]
      exact map_readDigits_positive.2 ⟨hdigits, hvalue⟩
    | plus hne hdigits hvalue =>
      rw [readInt64]
      · exact map_readDigits_positive.2 ⟨hdigits, hvalue⟩
      · exact hne
    | minus hne hdigits hvalue =>
      rw [readInt64]
      · exact map_readDigits_negative.2 ⟨hdigits, hvalue⟩
      · exact hne

/-- Nothing but digits and a sign stands in a number. -/
theorem Denotes.mem (h : Denotes text value) :
    ∀ b ∈ text, Ascii.isDigit b = true ∨ b = 0x2B ∨ b = 0x2D := by
  intro b hb
  cases h with
  | plain _ hdigits _ => exact .inl (hdigits b hb)
  | plus _ hdigits _ =>
    rcases List.mem_cons.1 hb with rfl | hb
    · exact .inr (.inl rfl)
    · exact .inl (hdigits b hb)
  | minus _ hdigits _ =>
    rcases List.mem_cons.1 hb with rfl | hb
    · exact .inr (.inr rfl)
    · exact .inl (hdigits b hb)

end

end Decimal

end LogCodec
