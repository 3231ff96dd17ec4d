import LogCodec.Proofs.Message.RoundTrip
import Mathlib.Algebra.Ring.Int.Defs
import Mathlib.Data.Int.Order.Basic

/-! # Inline integers

    An integer is stored in two's complement.  Its text is the one that is written for it,
    and there is no other.

    * `IntegerText`: the decimal texts of integers, and `Decimal.integer?_eq_some_iff`:
      these are the texts that are read, and each as its integer.
    * `Variable.ofInt?_eq_some_iff`: variables and the integers in their range.
    * `Register`: reading and writing by way of signed numbers of 64 bits.
    * `integers_kept`: what is stored is written again, what is written is stored again, and
      64 bits are enough on the way. -/

namespace LogCodec

/-! ### Texts of integers -/

/-- The decimal text of an integer: digits of which the first is no zero, behind a minus
    sign if the integer is negative.  The text of zero is a single digit. -/
inductive IntegerText : Bytes → Int → Prop where
  | zero : IntegerText [0x30] 0
  | positive {first : UInt8} {rest : Bytes} :
    (∀ b ∈ first :: rest, Ascii.isDigit b = true) → first ≠ 0x30 →
    IntegerText (first :: rest) (Decimal.ofDigits (first :: rest))
  | negative {first : UInt8} {rest : Bytes} :
    (∀ b ∈ first :: rest, Ascii.isDigit b = true) → first ≠ 0x30 →
    IntegerText (0x2D :: first :: rest) (-(Decimal.ofDigits (first :: rest) : Int))

namespace Decimal

variable {text : Bytes}

/-- Digits of which the first is no zero are those of a positive number. -/
theorem ofDigits_pos {first : UInt8} {rest : Bytes}
    (hdigits : ∀ b ∈ first :: rest, Ascii.isDigit b = true) (hfirst : first ≠ 0x30) :
    0 < ofDigits (first :: rest) := by
  have hrange := Ascii.isDigit_iff.1 (hdigits first (List.mem_cons_self ..))
  have hne : first.toNat ≠ 0x30 := fun h => hfirst (UInt8.toNat_inj.1 h)
  have hvalue : 0 < digitValue first := by
    rw [digitValue]
    omega
  -- further digits only make the number greater
  show 0 < rest.foldl (fun n b => n * 10 + digitValue b) (0 * 10 + digitValue first)
  have hle := le_foldl_digits (0 * 10 + digitValue first) rest
  omega

/-- The texts of natural numbers are zero, and digits of which the first is no zero. -/
theorem canonical?_eq_some_iff {n : Nat} :
    canonical? text = some n ↔ text = [0x30] ∧ n = 0 ∨
      ∃ first rest, text = first :: rest ∧ (∀ b ∈ first :: rest, Ascii.isDigit b = true) ∧
        first ≠ 0x30 ∧ n = ofDigits (first :: rest) := by
  constructor
  · intro h
    obtain ⟨⟨hne, hall, hlead⟩, hn⟩ := Option.ite_none_right_eq_some.1 h
    obtain ⟨first, rest, rfl⟩ := List.exists_cons_of_ne_nil hne
    have hn := (Option.some.inj hn).symm
    by_cases hfirst : first = 0x30
    · -- a leading zero stands alone
      subst hfirst
      have hlength := hlead rfl
      have hrest : rest = [] := List.length_eq_zero_iff.1 (Nat.succ.inj hlength)
      subst hrest
      exact .inl ⟨rfl, hn⟩
    · exact .inr ⟨first, rest, rfl, List.all_eq_true.1 hall, hfirst, hn⟩
  · intro h
    rcases h with ⟨rfl, rfl⟩ | ⟨first, rest, rfl, hdigits, hfirst, rfl⟩
    · rfl
    · apply Option.ite_none_right_eq_some.2
      refine ⟨⟨List.cons_ne_nil _ _, List.all_eq_true.2 hdigits, ?_⟩, rfl⟩
      intro hhead
      exact absurd (Option.some.inj hhead) hfirst

theorem ne_minus_of_isDigit {b : UInt8} (h : Ascii.isDigit b = true) : b ≠ 0x2D := by
  intro hminus
  subst hminus
  exact absurd h (by decide)

/-- A text that starts with a digit has no sign. -/
theorem integer?_of_isDigit {first : UInt8} {rest : Bytes} (h : Ascii.isDigit first = true) :
    integer? (first :: rest) = (canonical? (first :: rest)).map fun n : Nat => (n : Int) := by
  have hminus := ne_minus_of_isDigit h
  rw [integer?]
  simpa using hminus

/-- **Reading an integer** gives the one whose text it is. -/
theorem integer?_eq_some_iff {i : Int} : integer? text = some i ↔ IntegerText text i := by
  constructor
  · intro h
    unfold integer? at h
    split at h
    · rename_i rest
      obtain ⟨n, hn, rfl⟩ := Option.map_eq_some_iff.1 h
      obtain ⟨hn, hne⟩ := Option.filter_eq_some_iff.1 hn
      rcases canonical?_eq_some_iff.1 hn with ⟨-, rfl⟩ | ⟨first, rest, rfl, hdigits, hfirst, rfl⟩
      · -- there is no negative zero
        exact absurd hne (by decide)
      · exact .negative hdigits hfirst
    · obtain ⟨n, hn, rfl⟩ := Option.map_eq_some_iff.1 h
      rcases canonical?_eq_some_iff.1 hn with ⟨rfl, rfl⟩ | ⟨first, rest, rfl, hdigits, hfirst, rfl⟩
      · exact .zero
      · exact .positive hdigits hfirst
  · intro h
    cases h with
    | zero => rfl
    | @positive first rest hdigits hfirst =>
      rw [integer?_of_isDigit (hdigits first (List.mem_cons_self ..)),
        canonical?_eq_some_iff.2 (.inr ⟨first, rest, rfl, hdigits, hfirst, rfl⟩)]
      rfl
    | @negative first rest hdigits hfirst =>
      have hpos := ofDigits_pos hdigits hfirst
      have hcanonical := canonical?_eq_some_iff.2 (.inr ⟨first, rest, rfl, hdigits, hfirst, rfl⟩)
      rw [integer?, hcanonical, Option.filter_some, if_pos (by simpa using Nat.ne_of_gt hpos)]
      rfl

/-- Each positive number has a text that starts with no zero. -/
theorem exists_digits_eq_cons {n : Nat} (h : 0 < n) :
    ∃ first rest, digits n = first :: rest ∧ first ≠ 0x30 := by
  -- the first digit is that of the last quotient, which is less than ten
  induction n using Nat.strongRecOn with
  | ind n ih =>
    by_cases hlt : n < 10
    · refine ⟨digit n, [], digits_of_lt hlt, ?_⟩
      intro hzero
      have hvalue := digitValue_digit hlt
      rw [hzero] at hvalue
      exact absurd hvalue (Nat.ne_of_lt h)
    · obtain ⟨first, rest, hdigits, hfirst⟩ := ih (n / 10) (by omega) (by omega)
      refine ⟨first, rest ++ [digit (n % 10)], ?_, hfirst⟩
      rw [digits_of_le (Nat.le_of_not_lt hlt), hdigits, List.cons_append]

/-- What is written for an integer is its text. -/
theorem integerText_ofInteger (i : Int) : IntegerText (ofInteger i) i := by
  by_cases hzero : i = 0
  · subst hzero
    show IntegerText (digits 0) 0
    rw [digits_of_lt (by decide)]
    exact .zero
  · obtain ⟨first, rest, hdigits, hfirst⟩ := exists_digits_eq_cons (Int.natAbs_pos.2 hzero)
    have hall := @isDigit_of_mem_digits i.natAbs
    have hvalue := ofDigits_digits i.natAbs
    rw [hdigits] at hall hvalue
    by_cases hneg : i < 0
    · have htext := IntegerText.negative hall hfirst
      rw [hvalue, show -(i.natAbs : Int) = i by omega] at htext
      rw [ofInteger, if_pos hneg, hdigits]
      exact htext
    · have htext := IntegerText.positive hall hfirst
      rw [hvalue, show (i.natAbs : Int) = i by omega] at htext
      rw [ofInteger, if_neg hneg, hdigits]
      exact htext

/-- The text of an integer is the one that is written for it. -/
theorem ofInteger_eq_iff {i : Int} : ofInteger i = text ↔ IntegerText text i := by
  constructor
  · intro h
    rw [← h]
    exact integerText_ofInteger i
  · intro h
    exact ofInteger_of_integer? (integer?_eq_some_iff.2 h)

section

variable {value : Int64} (hne : text ≠ []) (hdigits : ∀ b ∈ text, Ascii.isDigit b = true)

include hne hdigits

/-- Digits by themselves denote their value. -/
theorem denotes_digits_iff : Denotes text value ↔ value.toInt = ofDigits text := by
  constructor
  · intro h
    cases h with
    | plain _ _ hvalue => exact hvalue
    | plus | minus => exact absurd (hdigits _ (List.mem_cons_self ..)) (by decide)
  · intro h
    exact .plain hne hdigits h

/-- Behind a minus sign they denote the negative of their value. -/
theorem denotes_minus_iff :
    Denotes (0x2D :: text) value ↔ value.toInt = -(ofDigits text : Int) := by
  constructor
  · intro h
    cases h with
    | plain _ hall _ => exact absurd (hall 0x2D (List.mem_cons_self ..)) (by decide)
    | minus _ _ hvalue => exact hvalue
  · intro h
    exact .minus hne hdigits h

end

/-- The digit zero by itself denotes zero. -/
theorem denotes_zero_iff {value : Int64} : Denotes [0x30] value ↔ value.toInt = 0 := by
  apply denotes_digits_iff (List.cons_ne_nil _ _)
  intro b hb
  rw [List.mem_singleton.1 hb]
  rfl

end Decimal

/-! ### Variables and integers -/

namespace Variable

variable {w : Width}

/-- The variable of an integer is the one whose bits stand for it. -/
theorem ofInt?_eq_some_iff {value : Int} {v : Variable w} :
    ofInt? value = some v ↔ v.toInt = value := by
  constructor
  · exact Number.toInt_of_ofInt?
  · intro h
    subst h
    show (if (BitVec.ofInt w.bits v.toInt).toInt = v.toInt then _ else _) = _
    rw [BitVec.ofInt_toInt, if_pos rfl]

/-- All integers in the range of the width have one. -/
theorem exists_toInt_eq_iff {value : Int} :
    (∃ v : Variable w, v.toInt = value) ↔
      -2 ^ (w.bits - 1) ≤ value ∧ value < 2 ^ (w.bits - 1) := by
  constructor
  · intro h
    obtain ⟨v, rfl⟩ := h
    exact ⟨v.le_toInt, v.toInt_lt⟩
  · intro h
    obtain ⟨hlow, hhigh⟩ := h
    refine ⟨BitVec.ofInt w.bits value, ?_⟩
    have hpos : 0 < w.bits := by cases w <;> decide
    exact BitVec.toInt_ofInt_eq_self hpos hlow hhigh

end Variable

namespace Number

variable {w : Width}

theorem encodeInteger?_eq_some_iff {token : Bytes} {v : Variable w} :
    encodeInteger? w token = some v ↔ IntegerText token v.toInt := by
  rw [encodeInteger?, Option.bind_eq_some_iff]
  simp only [Decimal.integer?_eq_some_iff, Variable.ofInt?_eq_some_iff]
  constructor
  · intro h
    obtain ⟨value, htext, rfl⟩ := h
    exact htext
  · intro h
    exact ⟨v.toInt, h, rfl⟩

/-- **Which texts are stored as integers.** -/
theorem isSome_encodeInteger?_iff {token : Bytes} :
    (encodeInteger? w token).isSome = true ↔ ∃ value, IntegerText token value ∧
      -2 ^ (w.bits - 1) ≤ value ∧ value < 2 ^ (w.bits - 1) := by
  simp only [Option.isSome_iff_exists, encodeInteger?_eq_some_iff, ← Variable.exists_toInt_eq_iff]
  constructor
  · intro h
    obtain ⟨v, htext⟩ := h
    exact ⟨v.toInt, htext, v, rfl⟩
  · intro h
    obtain ⟨value, htext, v, rfl⟩ := h
    exact ⟨v, htext⟩

/-! ### Numbers of 64 bits -/

namespace Register

/-- The variable of a signed 64-bit number: its low bits, if the number is had from them
    again. -/
def narrow? (w : Width) (value : Int64) : Option (Variable w) :=
  let v := value.toBitVec.signExtend w.bits
  if v.signExtend 64 = value.toBitVec then some v else none

/-- Digits, of which the first is no zero unless it stands alone and without a sign. -/
def IsPlain (negative : Bool) (digits : Bytes) : Prop :=
  digits ≠ [] ∧ digits.all Ascii.isDigit ∧
    ¬(digits.head? = some 0x30 ∧ (1 < digits.length ∨ negative))

instance (negative : Bool) (digits : Bytes) : Decidable (IsPlain negative digits) :=
  inferInstanceAs (Decidable (_ ∧ _))

/-- Reads a signed 64-bit number of plain digits, and keeps it in the width. -/
def encodeInteger? (w : Width) : Bytes → Option (Variable w)
  | 0x2D :: digits =>
    if IsPlain true digits then
      (Decimal.readInt64 (0x2D :: digits)).toOption.bind (narrow? w)
    else none
  | digits =>
    if IsPlain false digits then (Decimal.readInt64 digits).toOption.bind (narrow? w) else none

/-- The text of the absolute value, which is taken without a sign in 64 bits, behind a minus
    sign if the variable is negative. -/
def integerText (v : Variable w) : Bytes :=
  let value := v.signExtend 64
  if value.msb then 0x2D :: Decimal.digits (-value).toNat else Decimal.digits value.toNat

/-! ### Nothing is lost in 64 bits -/

theorem bits_le (w : Width) : w.bits ≤ 64 := by cases w <;> decide

theorem toInt_signExtend (v : Variable w) : (v.signExtend 64).toInt = v.toInt :=
  BitVec.toInt_signExtend_of_le (bits_le w)

/-- A number is kept just if its low bits stand for it. -/
theorem narrow?_eq_some_iff {value : Int64} {v : Variable w} :
    narrow? w value = some v ↔ v.toInt = value.toInt := by
  have hlow : value.toBitVec.signExtend w.bits = BitVec.ofInt w.bits value.toInt := rfl
  have hkept : (BitVec.ofInt w.bits value.toInt).signExtend 64 = value.toBitVec ↔
      (BitVec.ofInt w.bits value.toInt).toInt = value.toInt := by
    rw [← BitVec.toInt_inj, toInt_signExtend]
    rfl
  rw [← Variable.ofInt?_eq_some_iff]
  simp only [narrow?, Variable.ofInt?, hlow, hkept]

theorem isPlain_iff {negative : Bool} {digits : Bytes} :
    IsPlain negative digits ↔ digits = [0x30] ∧ negative = false ∨
      ∃ first rest, digits = first :: rest ∧ (∀ b ∈ first :: rest, Ascii.isDigit b = true) ∧
        first ≠ 0x30 := by
  constructor
  · intro h
    obtain ⟨hne, hall, hlead⟩ := h
    obtain ⟨first, rest, rfl⟩ := List.exists_cons_of_ne_nil hne
    by_cases hfirst : first = 0x30
    · subst hfirst
      refine .inl ?_
      rw [List.head?_cons, List.length_cons] at hlead
      obtain ⟨hlength, hnegative⟩ := not_or.1 fun h => hlead ⟨rfl, h⟩
      have hrest : rest = [] := List.length_eq_zero_iff.1 (by omega)
      exact ⟨by rw [hrest], Bool.eq_false_iff.2 hnegative⟩
    · exact .inr ⟨first, rest, rfl, List.all_eq_true.1 hall, hfirst⟩
  · intro h
    rcases h with ⟨rfl, rfl⟩ | ⟨first, rest, rfl, hdigits, hfirst⟩
    · exact ⟨List.cons_ne_nil _ _, rfl, by decide⟩
    · refine ⟨List.cons_ne_nil _ _, List.all_eq_true.2 hdigits, ?_⟩
      intro h
      exact hfirst (Option.some.inj h.1)

/-- A number that is read and kept. -/
theorem bind_narrow?_eq_some_iff {token : Bytes} {v : Variable w} :
    (Decimal.readInt64 token).toOption.bind (narrow? w) = some v ↔
      ∃ value, Decimal.Denotes token value ∧ v.toInt = value.toInt := by
  rw [Option.bind_eq_some_iff]
  simp only [narrow?_eq_some_iff, ← Decimal.readInt64_eq_ok_iff]
  cases Decimal.readInt64 token <;> simp [Except.toOption]

/-- What is read from plain digits and kept. -/
theorem encodeInteger?_eq_some_iff {token : Bytes} {v : Variable w} :
    encodeInteger? w token = some v ↔ IntegerText token v.toInt := by
  constructor
  · intro h
    unfold encodeInteger? at h
    split at h
    · obtain ⟨hplain, h⟩ := Option.ite_none_right_eq_some.1 h
      obtain ⟨value, hdenotes, hv⟩ := bind_narrow?_eq_some_iff.1 h
      rcases isPlain_iff.1 hplain with ⟨-, hfalse⟩ | ⟨first, rest, rfl, hdigits, hfirst⟩
      · -- zero has no sign
        cases hfalse
      · rw [hv, (Decimal.denotes_minus_iff (List.cons_ne_nil _ _) hdigits).1 hdenotes]
        exact .negative hdigits hfirst
    · obtain ⟨hplain, h⟩ := Option.ite_none_right_eq_some.1 h
      obtain ⟨value, hdenotes, hv⟩ := bind_narrow?_eq_some_iff.1 h
      rcases isPlain_iff.1 hplain with ⟨rfl, -⟩ | ⟨first, rest, rfl, hdigits, hfirst⟩
      · rw [hv, Decimal.denotes_zero_iff.1 hdenotes]
        exact .zero
      · rw [hv, (Decimal.denotes_digits_iff (List.cons_ne_nil _ _) hdigits).1 hdenotes]
        exact .positive hdigits hfirst
  · intro h
    -- every variable is a signed number of 64 bits
    obtain ⟨value, hvalue⟩ : ∃ value : Int64, v.toInt = value.toInt :=
      ⟨.ofBitVec (v.signExtend 64), (toInt_signExtend v).symm⟩
    have hread (hdenotes : Decimal.Denotes token value) :
        (Decimal.readInt64 token).toOption.bind (narrow? w) = some v :=
      bind_narrow?_eq_some_iff.2 ⟨value, hdenotes, hvalue⟩
    generalize v.toInt = i at h hvalue
    cases h with
    | zero =>
      exact hread (Decimal.denotes_zero_iff.2 hvalue.symm)
    | @positive first rest hdigits hfirst =>
      have hminus := Decimal.ne_minus_of_isDigit (hdigits first (List.mem_cons_self ..))
      have hplain : IsPlain false (first :: rest) :=
        isPlain_iff.2 (.inr ⟨first, rest, rfl, hdigits, hfirst⟩)
      rw [encodeInteger?, if_pos hplain]
      · exact hread ((Decimal.denotes_digits_iff (List.cons_ne_nil _ _) hdigits).2 hvalue.symm)
      · intro _ hcons
        exact hminus (List.cons.inj hcons).1
    | @negative first rest hdigits hfirst =>
      have hplain : IsPlain true (first :: rest) :=
        isPlain_iff.2 (.inr ⟨first, rest, rfl, hdigits, hfirst⟩)
      rw [encodeInteger?, if_pos hplain]
      exact hread ((Decimal.denotes_minus_iff (List.cons_ne_nil _ _) hdigits).2 hvalue.symm)

/-- **Reading by way of 64 bits** stores the same texts, and in the same bits. -/
theorem encodeInteger?_eq (token : Bytes) :
    encodeInteger? w token = Number.encodeInteger? w token := by
  apply Option.ext
  intro v
  rw [encodeInteger?_eq_some_iff, Number.encodeInteger?_eq_some_iff]

/-- The absolute value of the least number is one too great for a signed number, but goes
    into 64 bits without a sign. -/
theorem integerText_eq (v : Variable w) : integerText v = Number.integerText v := by
  rw [Number.integerText, ← toInt_signExtend]
  generalize hvalue : v.signExtend 64 = value
  have hlt := value.isLt
  simp only [integerText, hvalue, Decimal.ofInteger, BitVec.msb_eq_toInt, decide_eq_true_eq]
  by_cases hneg : value.toInt < 0
  · -- negated modulo 2 ^ 64, a negative number is its absolute value
    rw [if_pos hneg, if_pos hneg]
    congr 2
    rw [BitVec.toInt_eq_toNat_cond] at hneg ⊢
    rw [BitVec.toNat_neg]
    split at hneg <;> omega
  · rw [if_neg hneg, if_neg hneg]
    congr 1
    rw [BitVec.toInt_eq_toNat_cond] at hneg ⊢
    split at hneg <;> omega

end Register

/-! ### Texts and variables -/

/-- Where an integer is due and `v` is the next variable, `text` is written and the rest of
    the message goes on behind it. -/
def IntegerWrites (v : Variable w) (text : Bytes) : Prop :=
  integerText v = text ∧
    ∀ (e : Encoded w) (items : List LogType.Item) (s : Rendering.Stage w)
      (inline : List (Variable w)), s.inline = v :: inline →
      e.renderItems (.placeholder .integer :: items) s =
        e.renderItems items ({ s with inline := inline }.put text)

theorem integerWrites_iff {v : Variable w} {text : Bytes} :
    IntegerWrites v text ↔ IntegerText text v.toInt := by
  rw [← Decimal.ofInteger_eq_iff]
  constructor
  · intro h
    exact h.1
  · intro h
    refine ⟨h, ?_⟩
    intro e items s inline hs
    rw [← h]
    exact e.renderItems_integer items inline hs

/-- **Integers are kept.**  A text is stored as an integer just in the bits that it is written
    for.  The texts that are stored are the decimal texts of all integers in the range of the
    width, the least and the greatest ones included: they have no leading zero and no plus
    sign, and there is no negative zero.  So every variable whatever is written as a text that
    is stored in the same variable.  On the way a number never leaves 64 bits, neither when it
    is read and kept in fewer bits nor when its absolute value is written. -/
theorem integers_kept (w : Width) :
    (∀ (token : Bytes) (v : Variable w),
      encodeInteger? w token = some v ↔ IntegerWrites v token) ∧
      (∀ (token : Bytes) (v : Variable w),
        encodeInteger? w token = some v ↔ IntegerText token v.toInt) ∧
      (∀ token, (encodeInteger? w token).isSome = true ↔ ∃ value, IntegerText token value ∧
        -2 ^ (w.bits - 1) ≤ value ∧ value < 2 ^ (w.bits - 1)) ∧
      (∀ v : Variable w, ∃ text, IntegerWrites v text ∧ encodeInteger? w text = some v) ∧
      (∀ token, Register.encodeInteger? w token = encodeInteger? w token) ∧
      (∀ v : Variable w, Register.integerText v = integerText v) := by
  refine ⟨?_, fun _ _ => encodeInteger?_eq_some_iff, fun _ => isSome_encodeInteger?_iff, ?_,
    Register.encodeInteger?_eq, Register.integerText_eq⟩
  · intro token v
    rw [encodeInteger?_eq_some_iff, integerWrites_iff]
  · intro v
    have htext := Decimal.integerText_ofInteger v.toInt
    exact ⟨integerText v, integerWrites_iff.2 htext, encodeInteger?_eq_some_iff.2 htext⟩

/-- The least number of 32 bits, and the next one below it. -/
example :
    encodeInteger? .fourByte [0x2D, 0x32, 0x31, 0x34, 0x37, 0x34, 0x38, 0x33, 0x36, 0x34, 0x38] =
        some (0x80000000 : Variable .fourByte) ∧
      encodeInteger? .fourByte
        [0x2D, 0x32, 0x31, 0x34, 0x37, 0x34, 0x38, 0x33, 0x36, 0x34, 0x39] = none := by
  decide +kernel

end Number

end LogCodec
