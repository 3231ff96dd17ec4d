/-! # Bytes

    Messages, records and streams are lists of bytes.  This module gives the
    name, the ASCII classes that the tokenizer and the number formats are
    stated with, the reading of a fixed count of bytes from the front, and the
    search for bytes in bytes. -/

namespace LogCodec

/-- A sequence of bytes. -/
abbrev Bytes := List UInt8

namespace Bytes

/-- The first `n` bytes and the rest, or nothing when there are fewer than
    `n`.  It looks at no more than `n` bytes, however large `n` is. -/
def splitExact? (n : Nat) (bytes : Bytes) : Option (Bytes × Bytes) :=
  if (bytes.take n).length = n then some (bytes.take n, bytes.drop n) else none

theorem splitExact?_eq_some_iff {n : Nat} {bytes front rest : Bytes} :
    splitExact? n bytes = some (front, rest) ↔ bytes = front ++ rest ∧ front.length = n := by
  unfold splitExact?
  constructor
  · intro h
    split at h
    · rename_i hn
      simp only [Option.some.injEq, Prod.mk.injEq] at h
      obtain ⟨rfl, rfl⟩ := h
      exact ⟨(List.take_append_drop n bytes).symm, hn⟩
    · cases h
  · rintro ⟨rfl, rfl⟩
    simp

theorem splitExact?_eq_none_iff {n : Nat} {bytes : Bytes} :
    splitExact? n bytes = none ↔ bytes.length < n := by
  unfold splitExact?
  split
  · rename_i h
    rw [List.length_take] at h
    simp only [reduceCtorEq, false_iff]
    omega
  · rename_i h
    rw [List.length_take] at h
    simp only [true_iff]
    omega

/-- Does `needle` stand somewhere in `bytes`?  The empty needle always does. -/
def contains (needle : Bytes) : Bytes → Bool
  | [] => needle.isEmpty
  | b :: rest => needle.isPrefixOf (b :: rest) || contains needle rest

theorem contains_iff {needle bytes : Bytes} :
    contains needle bytes = true ↔ ∃ front back, bytes = front ++ needle ++ back := by
  induction bytes with
  | nil =>
    rw [contains, List.isEmpty_iff]
    constructor
    · intro h
      exact ⟨[], [], by rw [h]; rfl⟩
    · intro h
      obtain ⟨front, back, hempty⟩ := h
      exact (List.append_eq_nil_iff.1 (List.append_eq_nil_iff.1 hempty.symm).1).2
  | cons b rest ih =>
    rw [contains, Bool.or_eq_true, List.isPrefixOf_iff_prefix, ih]
    constructor
    · intro h
      rcases h with ⟨back, hprefix⟩ | ⟨front, back, hrest⟩
      · exact ⟨[], back, hprefix.symm⟩
      · exact ⟨b :: front, back, congrArg (b :: ·) hrest⟩
    · intro h
      obtain ⟨front, back, hbytes⟩ := h
      cases front with
      | nil => exact .inl ⟨back, hbytes.symm⟩
      | cons c front => exact .inr ⟨front, back, (List.cons.inj hbytes).2⟩

end Bytes

/-! ### ASCII classes -/

namespace Ascii

/-- `0` to `9`. -/
def isDigit (b : UInt8) : Bool := 0x30 ≤ b && b ≤ 0x39

/-- `A` to `Z` and `a` to `z`. -/
def isLetter (b : UInt8) : Bool := (0x41 ≤ b && b ≤ 0x5A) || (0x61 ≤ b && b ≤ 0x7A)

/-- `0` to `9`, `A` to `F` and `a` to `f`. -/
def isHexDigit (b : UInt8) : Bool :=
  isDigit b || (0x41 ≤ b && b ≤ 0x46) || (0x61 ≤ b && b ≤ 0x66)

/-- The lower-case form of an ASCII letter; every other character is kept. -/
def lower (c : Char) : Char :=
  if 'A' ≤ c ∧ c ≤ 'Z' then Char.ofNat (c.toNat + 32) else c

end Ascii

end LogCodec
