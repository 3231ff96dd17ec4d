import LogCodec.Proofs.Message.Float

/-! # Floats in machine words

    A float is read and packed in words of 64 bits.  A number may turn out too large for its
    word, and two fields may turn out to share a bit.

    * `Register`: reading and packing that stops at the first such fault.
    * `Register.scan_digits`, `Register.pack_eq`: digits that are within the limits, and
      fields that fit, meet with none.
    * `floats_kept`: exactly the texts of `FloatText` are stored, nothing goes wrong in 64
      bits, and text and bits determine each other. -/

namespace LogCodec.Number

variable {w : Width}

/-! ### Reading and packing -/

/-- What goes wrong with numbers in words of few bits. -/
inductive WordFault where
  /-- A number that its word does not hold. -/
  | overflow
  /-- A bit that is set in both of the numbers that are put together. -/
  | overlap
deriving DecidableEq

namespace Register

/-- A number that `bits` bits must hold. -/
def hold (bits n : Nat) : Except WordFault Nat :=
  if n < 2 ^ bits then .ok n else .error .overflow

/-- A difference, which must not be negative. -/
def less (a b : Nat) : Except WordFault Nat :=
  if b ≤ a then .ok (a - b) else .error .overflow

/-- Two numbers put together, in which no bit is set in both. -/
def join (a b : Nat) : Except WordFault Nat :=
  if a &&& b = 0 then .ok (a ||| b) else .error .overlap

/-- What was read of a text so far. -/
structure Tally where
  /-- The digits, read as one integer. -/
  value : Nat
  /-- How many digits there are. -/
  count : Nat
  /-- Where the point stands. -/
  point? : Option Nat

/-- Reads the bytes from `place` on.  There is no tally when a byte is neither a digit nor
    the first point. -/
def scan (place : Nat) (t : Tally) : Bytes → Except WordFault (Option Tally)
  | [] => .ok (some t)
  | b :: rest =>
    if Ascii.isDigit b then do
      let tens ← hold 64 (t.value * 10)
      let value ← hold 64 (tens + Decimal.digitValue b)
      scan (place + 1) { t with value := value, count := t.count + 1 } rest
    else if b = 0x2E ∧ t.point? = none then
      scan (place + 1) { t with point? := some place } rest
    else .ok none

/-- The fields, put together from the digits on.  A count is cut to its bits, and the
    sign comes last. -/
def pack (w : Width) (negative : Bool) (digits digitCount afterPoint : Nat) :
    Except WordFault (Variable w) := do
  let mask := 1 <<< w.floatCountBits - 1
  let digits ← hold 64 (digits <<< (2 * w.floatCountBits))
  let count ← hold 64 (((← less digitCount 1) &&& mask) <<< w.floatCountBits)
  let bits ← join digits count
  let bits ← join bits ((← less afterPoint 1) &&& mask)
  let sign ← hold 64 (1 <<< (w.bits - 1))
  let bits ← if negative then join bits sign else .ok bits
  return BitVec.ofNat w.bits (← hold w.bits bits)

/-- The float variable of a text without sign. -/
def ofUnsigned? (w : Width) (negative : Bool) (text : Bytes) :
    Except WordFault (Option (Variable w)) :=
  if w.floatDigitsMax + 1 < text.length then .ok none
  else do
    match ← scan 0 ⟨0, 0, none⟩ text with
    | none => return none
    | some ⟨_, _, none⟩ => return none
    | some ⟨value, count, some place⟩ =>
      let afterPoint ← less (← less text.length 1) place
      if afterPoint = 0 ∨ count = 0 ∨ w.floatDigitsMax < count then return none
      else if 1 <<< w.floatDigitsBits ≤ value then return none
      else return some (← pack w negative value count afterPoint)

/-- The float variable with this text. -/
def encodeFloat? (w : Width) : Bytes → Except WordFault (Option (Variable w))
  | 0x2D :: text => ofUnsigned? w true text
  | text => ofUnsigned? w false text

theorem hold_of_lt {bits n : Nat} (h : n < 2 ^ bits) : hold bits n = pure n := if_pos h

theorem less_of_le {a b : Nat} (h : b ≤ a) : less a b = pure (a - b) := if_pos h

/-- Numbers are put together as in a sum when the one is below the bits of the other. -/
theorem join_of_lt {a b k : Nat} (h : b < 2 ^ k) : join (a * 2 ^ k) b = pure (a * 2 ^ k + b) := by
  have hapart : a * 2 ^ k &&& b = 0 := by
    apply Nat.eq_of_testBit_eq
    intro i
    rw [Nat.testBit_and, Nat.mul_comm, Nat.testBit_two_pow_mul, Nat.zero_testBit]
    by_cases hi : k ≤ i
    · rw [Nat.testBit_lt_two_pow (Nat.lt_of_lt_of_le h (Nat.pow_le_pow_right (by decide) hi)),
        Bool.and_false]
    · simp [hi]
  rw [join, if_pos hapart, Nat.mul_comm, ← Nat.two_pow_add_eq_or_of_lt h]
  rfl

/-- Digits are read into the tally, and the number that they are fits 64 bits. -/
theorem scan_digits {ds front : Bytes} (hds : ∀ b ∈ ds, Ascii.isDigit b = true)
    (hfront : ∀ b ∈ front, Ascii.isDigit b = true) (hlength : ds.length + front.length ≤ 19)
    (place : Nat) (point? : Option Nat) (rest : Bytes) :
    scan place ⟨Decimal.ofDigits ds, ds.length, point?⟩ (front ++ rest) =
      scan (place + front.length)
        ⟨Decimal.ofDigits (ds ++ front), ds.length + front.length, point?⟩ rest := by
  -- on the digits that are left; those that were read are carried along
  induction front generalizing ds place with
  | nil => rw [List.append_nil]; rfl
  | cons b front ih =>
    have hb := hfront b (List.mem_cons_self ..)
    have hnext : ∀ c ∈ ds ++ [b], Ascii.isDigit c = true := by
      intro c hc
      rcases List.mem_append.1 hc with hold | hnew
      · exact hds c hold
      · rw [List.mem_singleton.1 hnew]
        exact hb
    rw [List.length_cons] at hlength
    have hvalue : Decimal.ofDigits ds * 10 + Decimal.digitValue b < 2 ^ 64 := by
      rw [← Decimal.ofDigits_append_singleton]
      calc Decimal.ofDigits (ds ++ [b]) < 10 ^ (ds ++ [b]).length := Decimal.ofDigits_lt hnext
        _ ≤ 10 ^ 19 := Nat.pow_le_pow_right (by decide) (by simp; omega)
        _ < 2 ^ 64 := by decide
    have htens : Decimal.ofDigits ds * 10 < 2 ^ 64 :=
      Nat.lt_of_le_of_lt (Nat.le_add_right ..) hvalue
    rw [List.cons_append, scan, if_pos hb, hold_of_lt htens, pure_bind, hold_of_lt hvalue,
      pure_bind, ← Decimal.ofDigits_append_singleton]
    have hcount : ds.length + 1 = (ds ++ [b]).length := by simp
    dsimp only
    rw [hcount, ih hnext (fun c hc => hfront c (List.mem_cons_of_mem _ hc)) (by simp; omega)]
    simp only [List.append_assoc, List.singleton_append, List.length_append, List.length_cons,
      List.length_nil, Nat.zero_add, Nat.add_assoc, Nat.add_comm 1]

/-- There is no tally from a byte on that is neither a digit nor the first point. -/
theorem scan_stop {b : UInt8} (hb : ¬Ascii.isDigit b = true) {t : Tally}
    (h : ¬(b = 0x2E ∧ t.point? = none)) (place : Nat) (rest : Bytes) :
    scan place t (b :: rest) = pure none := by
  rw [scan, if_neg hb, if_neg h]
  rfl

theorem scan_point (place value count : Nat) (rest : Bytes) :
    scan place ⟨value, count, none⟩ (0x2E :: rest) =
      scan (place + 1) ⟨value, count, some place⟩ rest := rfl

theorem join_comm (a b : Nat) : join a b = join b a := by
  rw [join, join, Nat.and_comm, Nat.or_comm]

section

variable {f : FloatFields} (hfits : f.Fits w) (hpoint : f.HasPoint)

include hfits hpoint

/-- Each count has just the bits for the most digits that there may be. -/
theorem count_lt : f.digitCount - 1 < 2 ^ w.floatCountBits ∧
    f.afterPoint - 1 < 2 ^ w.floatCountBits := by
  have hmax : w.floatDigitsMax = 2 ^ w.floatCountBits := by cases w <;> rfl
  have hcount := hfits.1
  have hone := hpoint.1
  have hafter := hpoint.2
  omega

/-- The counts end below the digits. -/
theorem counts_lt : (f.digitCount - 1) * 2 ^ w.floatCountBits + (f.afterPoint - 1) <
    2 ^ (2 * w.floatCountBits) := by
  obtain ⟨hcount, hafter⟩ := count_lt hfits hpoint
  calc _ < (f.digitCount - 1) * 2 ^ w.floatCountBits + 2 ^ w.floatCountBits :=
        Nat.add_lt_add_left hafter _
    _ = (f.digitCount - 1 + 1) * 2 ^ w.floatCountBits := (Nat.succ_mul ..).symm
    _ ≤ 2 ^ w.floatCountBits * 2 ^ w.floatCountBits := Nat.mul_le_mul_right _ hcount
    _ = _ := by rw [Nat.two_mul, Nat.pow_add]

/-- The digits end below the sign. -/
theorem unsigned_lt : f.digits * 2 ^ (2 * w.floatCountBits) +
    ((f.digitCount - 1) * 2 ^ w.floatCountBits + (f.afterPoint - 1)) < 2 ^ (w.bits - 1) := by
  have hroom : 2 ^ w.floatDigitsBits * 2 ^ (2 * w.floatCountBits) ≤ 2 ^ (w.bits - 1) := by
    cases w <;> decide
  have hdigits : f.digits < 2 ^ w.floatDigitsBits := Nat.one_shiftLeft _ ▸ hfits.2
  calc _ < f.digits * 2 ^ (2 * w.floatCountBits) + 2 ^ (2 * w.floatCountBits) :=
        Nat.add_lt_add_left (counts_lt hfits hpoint) _
    _ = (f.digits + 1) * 2 ^ (2 * w.floatCountBits) := (Nat.succ_mul ..).symm
    _ ≤ 2 ^ w.floatDigitsBits * 2 ^ (2 * w.floatCountBits) := Nat.mul_le_mul_right _ hdigits
    _ ≤ _ := hroom

/-- Fields that fit are packed without a fault, into the bits of their variable. -/
theorem pack_eq :
    pack w f.negative f.digits f.digitCount f.afterPoint = pure (f.toVariable w) := by
  obtain ⟨hcount, hafter⟩ := count_lt hfits hpoint
  have hcounts := counts_lt hfits hpoint
  have hunsigned := unsigned_lt hfits hpoint
  have hbits : 2 ^ w.bits = 2 ^ (w.bits - 1) + 2 ^ (w.bits - 1) := by cases w <;> rfl
  have hword : 2 ^ w.bits ≤ 2 ^ 64 := by cases w <;> decide
  have hone : 1 ≤ f.afterPoint ∧ 1 ≤ f.digitCount :=
    ⟨hpoint.1, Nat.le_trans hpoint.1 hpoint.2⟩
  -- the digits and the first count end where the second count begins
  have hfields : f.digits * 2 ^ (2 * w.floatCountBits) +
      (f.digitCount - 1) * 2 ^ w.floatCountBits =
        (f.digits * 2 ^ w.floatCountBits + (f.digitCount - 1)) * 2 ^ w.floatCountBits := by
    rw [Nat.add_mul, Nat.two_mul, Nat.pow_add, Nat.mul_assoc]
  simp only [pack, FloatFields.toVariable, Nat.shiftLeft_eq, Nat.one_mul,
    Nat.and_two_pow_sub_one_eq_mod]
  rw [hold_of_lt (by omega), pure_bind, less_of_le hone.2, pure_bind, Nat.mod_eq_of_lt hcount,
    hold_of_lt (by omega), pure_bind, join_of_lt (by omega), pure_bind, less_of_le hone.1,
    pure_bind, Nat.mod_eq_of_lt hafter, hfields, join_of_lt hafter, pure_bind,
    hold_of_lt (by omega), pure_bind, ← hfields, Nat.add_assoc (f.digits * _)]
  by_cases hsign : f.negative = true
  · rw [if_pos hsign, if_pos hsign, join_comm, ← Nat.one_mul (2 ^ (w.bits - 1)),
      join_of_lt hunsigned, pure_bind, hold_of_lt (by omega), pure_bind]
    simp only [Nat.add_assoc]
  · rw [if_neg hsign, if_neg hsign]
    show hold w.bits _ >>= _ = _
    rw [hold_of_lt (by omega), pure_bind, Nat.zero_add, Nat.add_assoc]

end

/-- Digits around a point are tallied without a fault. -/
theorem scan_point_digits {front back : Bytes} (hfront : ∀ b ∈ front, Ascii.isDigit b = true)
    (hback : ∀ b ∈ back, Ascii.isDigit b = true) (hlength : front.length + back.length ≤ 19) :
    scan 0 ⟨0, 0, none⟩ (front ++ 0x2E :: back) =
      pure (some ⟨Decimal.ofDigits (front ++ back), front.length + back.length,
        some front.length⟩) := by
  have hnone : ∀ b ∈ ([] : Bytes), Ascii.isDigit b = true := by simp
  have hbefore := scan_digits hnone hfront (by simp; omega) 0 none (0x2E :: back)
  have hafter := scan_digits hfront hback hlength (front.length + 1) (some front.length) []
  simp only [List.nil_append, List.length_nil, Nat.zero_add, List.append_nil] at hbefore hafter
  rw [show scan 0 ⟨0, 0, none⟩ _ = _ from hbefore, scan_point, hafter]
  rfl

/-- Of any other text there is no tally, or one without a point. -/
theorem scan_other {text : Bytes} (hlength : text.length ≤ 19)
    (h : ¬∃ front back, text = front ++ 0x2E :: back ∧
      (∀ b ∈ front, Ascii.isDigit b = true) ∧ ∀ b ∈ back, Ascii.isDigit b = true) :
    scan 0 ⟨0, 0, none⟩ text = pure none ∨
      ∃ value count, scan 0 ⟨0, 0, none⟩ text = pure (some ⟨value, count, none⟩) := by
  have hnone : ∀ b ∈ ([] : Bytes), Ascii.isDigit b = true := by simp
  rcases Ascii.digits_or_stop text with hall | ⟨front, b, back, rfl, hfront, hb⟩
  · right
    have hscan := scan_digits hnone hall (by simpa using hlength) 0 none []
    rw [List.append_nil] at hscan
    exact ⟨_, _, hscan⟩
  · left
    rw [List.length_append, List.length_cons] at hlength
    have hbefore := scan_digits hnone hfront (by simp; omega) 0 none (b :: back)
    rw [show scan 0 ⟨0, 0, none⟩ _ = _ from hbefore]
    by_cases hpoint : b = 0x2E
    · subst hpoint
      rw [scan_point]
      -- behind the point there must be something else than digits
      rcases Ascii.digits_or_stop back with hall | ⟨between, c, rest, rfl, hbetween, hc⟩
      · exact absurd ⟨front, back, rfl, hfront, hall⟩ h
      · rw [List.length_append, List.length_cons] at hlength
        have hafter := scan_digits hfront hbetween (by omega) (front.length + 1)
          (some front.length) (c :: rest)
        simp only [List.nil_append, List.length_nil, Nat.zero_add]
        rw [hafter, scan_stop hc (by simp)]
    · rw [scan_stop hb (by simp [hpoint])]

/-- Digits around a point are packed when their fields fit. -/
theorem ofUnsigned?_point {front back : Bytes} (negative : Bool)
    (hfront : ∀ b ∈ front, Ascii.isDigit b = true)
    (hback : ∀ b ∈ back, Ascii.isDigit b = true) :
    ofUnsigned? w negative (front ++ 0x2E :: back) =
      pure (if back ≠ [] ∧ (FloatFields.ofParts negative front back).Fits w then
        some ((FloatFields.ofParts negative front back).toVariable w) else none) := by
  have hmax : w.floatDigitsMax ≤ 16 := by cases w <;> decide
  have hlength : (front ++ 0x2E :: back).length = front.length + back.length + 1 := by
    simp [Nat.add_assoc]
  unfold ofUnsigned?
  rw [hlength]
  by_cases hcount : front.length + back.length ≤ w.floatDigitsMax
  · rw [if_neg (by omega), scan_point_digits hfront hback (by omega), pure_bind]
    dsimp only
    rw [less_of_le (Nat.le_add_left ..), pure_bind, Nat.add_sub_cancel,
      less_of_le (Nat.le_add_right ..), pure_bind, Nat.add_sub_cancel_left]
    by_cases hne : back = []
    · subst hne
      rfl
    · have hpos := List.length_pos_iff.2 hne
      rw [if_neg (by omega)]
      by_cases hdigits : Decimal.ofDigits (front ++ back) < 1 <<< w.floatDigitsBits
      · have hpack : pack w negative (Decimal.ofDigits (front ++ back))
            (front.length + back.length) back.length =
              pure ((FloatFields.ofParts negative front back).toVariable w) :=
          pack_eq (f := .ofParts negative front back) ⟨hcount, hdigits⟩
            ⟨hpos, Nat.le_add_left ..⟩
        rw [if_neg (by omega), hpack, if_pos ⟨hne, hcount, hdigits⟩]
        rfl
      · rw [if_pos (by omega), if_neg fun h => hdigits h.2.2]
  · -- such a text is too long
    rw [if_pos (by omega), if_neg fun h => hcount h.2.1]
    rfl

/-- A text without sign is read and packed without a fault. -/
theorem ofUnsigned?_eq (negative : Bool) (text : Bytes) :
    ofUnsigned? w negative text =
      pure (((FloatFields.ofUnsigned? negative text).filter fun f => decide (f.Fits w)).map
        (·.toVariable w)) := by
  by_cases hform : ∃ front back, text = front ++ 0x2E :: back ∧
      (∀ b ∈ front, Ascii.isDigit b = true) ∧ ∀ b ∈ back, Ascii.isDigit b = true
  · obtain ⟨front, back, rfl, hfront, hback⟩ := hform
    rw [ofUnsigned?_point negative hfront hback,
      FloatFields.ofUnsigned?_point hfront negative hback]
    by_cases hne : back = []
    · simp [hne]
    · rw [if_pos hne, Option.filter_some]
      by_cases hfits : (FloatFields.ofParts negative front back).Fits w
      · simp [hne, hfits]
      · simp [hne, hfits]
  · have hnone : FloatFields.ofUnsigned? negative text = none := by
      apply Option.eq_none_iff_forall_ne_some.2
      intro f hf
      obtain ⟨front, back, htext, hfront, hback, -⟩ := FloatFields.exists_of_ofUnsigned? hf
      exact hform ⟨front, back, htext, hfront, hback⟩
    have hmax : w.floatDigitsMax ≤ 16 := by cases w <;> decide
    rw [hnone, ofUnsigned?]
    by_cases hlong : w.floatDigitsMax + 1 < text.length
    · rw [if_pos hlong]
      rfl
    · rw [if_neg hlong]
      rcases scan_other (by omega) hform with hscan | ⟨value, count, hscan⟩
      · rw [hscan]
        rfl
      · rw [hscan]
        rfl

/-- **Nothing goes wrong in words of 64 bits.** -/
theorem encodeFloat?_eq (token : Bytes) :
    encodeFloat? w token = .ok (Number.encodeFloat? w token) := by
  by_cases hsign : ∃ text, token = 0x2D :: text
  · obtain ⟨text, rfl⟩ := hsign
    exact ofUnsigned?_eq true text
  · have hword : encodeFloat? w token = ofUnsigned? w false token := by
      unfold encodeFloat?
      split
      · exact absurd ⟨_, rfl⟩ hsign
      · rfl
    have hfields : FloatFields.ofText? token = FloatFields.ofUnsigned? false token := by
      unfold FloatFields.ofText?
      split
      · exact absurd ⟨_, rfl⟩ hsign
      · rfl
    rw [hword, Number.encodeFloat?, hfields]
    exact ofUnsigned?_eq false token

end Register

/-! ### Texts and bits -/

/-- Where a float is due and `v` is the next variable, `text` is written and the rest of
    the message goes on behind it. -/
def FloatWrites (v : Variable w) (text : Bytes) : Prop :=
  floatText v = .ok text ∧
    ∀ (e : Encoded w) (items : List LogType.Item) (s : Rendering.Stage w)
      (inline : List (Variable w)), s.inline = v :: inline →
      e.renderItems (.placeholder .float :: items) s =
        e.renderItems items ({ s with inline := inline }.put text)

/-- Where a float is due and `v` is the next variable, the message ends with what was
    written before. -/
def FloatStops (v : Variable w) : Prop :=
  ∃ fault, floatText v = .error fault ∧
    ∀ (e : Encoded w) (items : List LogType.Item) (s : Rendering.Stage w)
      (inline : List (Variable w)), s.inline = v :: inline →
      e.renderItems (.placeholder .float :: items) s = s.stop (some fault)

theorem floatWrites_of_floatText {v : Variable w} {text : Bytes} (h : floatText v = .ok text) :
    FloatWrites v text :=
  ⟨h, fun e items _ inline hs => e.renderItems_float items inline hs h⟩

theorem floatStops_of_floatText {v : Variable w} {fault : DecodeFault}
    (h : floatText v = .error fault) : FloatStops v := by
  refine ⟨fault, h, ?_⟩
  intro e items s inline hs
  rw [Encoded.renderItems, hs]
  simp only [h]

/-- **Floats are kept.**  Just the texts of digits around a point that are within the limits
    of the width are stored as floats; reading and packing them never leaves 64 bits, and no
    two fields share a bit.  What is stored is written as the very same text.  In the other
    direction any variable whatever is either refused, and nothing is written, or is written
    as a text that is stored in the bits of its fields again.  In four bytes these are all
    its bits, so no two variables are written alike. -/
theorem floats_kept (w : Width) :
    (∀ token, (encodeFloat? w token).isSome = true ↔ FloatText w token) ∧
      (∀ token, Register.encodeFloat? w token = .ok (encodeFloat? w token)) ∧
      (∀ token v, encodeFloat? w token = some v → FloatWrites v token) ∧
      (∀ v : Variable w, FloatStops v ∨
        ∃ text, FloatWrites v text ∧ encodeFloat? w text = some (v &&& floatBits w)) ∧
      (∀ (v v' : Variable .fourByte) (text : Bytes),
        FloatWrites v text → FloatWrites v' text → v = v') := by
  refine ⟨fun _ => isSome_encodeFloat?_iff, Register.encodeFloat?_eq, ?_, ?_, ?_⟩
  · intro token v h
    exact floatWrites_of_floatText (floatText_of_encodeFloat? h)
  · intro v
    cases htext : floatText v with
    | error fault => exact .inl (floatStops_of_floatText htext)
    | ok text =>
      exact .inr ⟨text, floatWrites_of_floatText htext, encodeFloat?_of_floatText htext⟩
  · intro v v' text h h'
    have hv := encodeFloat?_of_floatText h.1
    have hv' := encodeFloat?_of_floatText h'.1
    rw [and_floatBits_fourByte] at hv hv'
    exact Option.some.inj (hv.symm.trans hv')

/-- A minus sign, and zeros at both ends. -/
theorem floats_kept_zeros :
    let token : Bytes := [0x2D, 0x30, 0x2E, 0x35, 0x30]
    let v : Variable .fourByte := 0x80000C91
    encodeFloat? .fourByte token = some v ∧ FloatWrites v token ∧
      ∀ v', FloatWrites v' token → v' = v := by
  intro token v
  have hencoded : encodeFloat? .fourByte token = some v := by decide +kernel
  obtain ⟨-, -, hwrites, -, hsame⟩ := floats_kept .fourByte
  have hv := hwrites token v hencoded
  exact ⟨hencoded, hv, fun v' hv' => hsame v' v token hv' hv⟩

end LogCodec.Number
