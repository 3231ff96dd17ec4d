import LogCodec.Width
import Mathlib.Tactic.Ring

/-! # Words are read as they were written

    And as many bytes as a word has are written as they were read: a value has
    only one stored form. -/

namespace LogCodec

namespace Word

theorem ofBytes_cons (b : UInt8) (bytes : Bytes) :
    ofBytes (b :: bytes) = b.toNat * 256 ^ bytes.length + ofBytes bytes := by
  have hfold (n : Nat) : bytes.foldl (fun value b => value * 256 + b.toNat) n =
      n * 256 ^ bytes.length + ofBytes bytes := by
    unfold ofBytes
    induction bytes generalizing n with
    | nil => simp
    | cons c rest ih =>
      rw [List.foldl_cons, List.foldl_cons, ih, ih (0 * 256 + c.toNat), List.length_cons]
      ring
  rw [ofBytes, List.foldl_cons, hfold, Nat.zero_mul, Nat.zero_add]

/-- A word keeps the low bytes of its value. -/
theorem ofBytes_toBytes (n value : Nat) : ofBytes (toBytes n value) = value % 256 ^ n := by
  induction n with
  | zero => simp [toBytes, ofBytes, Nat.mod_one]
  | succ n ih =>
    have hshift : value >>> (8 * n) = value / 256 ^ n := by
      rw [Nat.shiftRight_eq_div_pow, Nat.pow_mul]
    rw [toBytes, ofBytes_cons, length_toBytes, ih, Nat.mod_pow_succ, UInt8.toNat_ofNat', hshift,
      Nat.mul_comm, Nat.add_comm]

theorem ofBytes_toBytes_of_lt {n value : Nat} (h : value < 256 ^ n) :
    ofBytes (toBytes n value) = value := by
  rw [ofBytes_toBytes, Nat.mod_eq_of_lt h]

theorem ofBytes_lt (bytes : Bytes) : ofBytes bytes < 256 ^ bytes.length := by
  induction bytes with
  | nil => simp [ofBytes]
  | cons b rest ih =>
    have hb : b.toNat + 1 ≤ 256 := b.toNat_lt
    rw [ofBytes_cons, List.length_cons]
    calc b.toNat * 256 ^ rest.length + ofBytes rest
        < b.toNat * 256 ^ rest.length + 256 ^ rest.length := by omega
      _ = (b.toNat + 1) * 256 ^ rest.length := by ring
      _ ≤ 256 * 256 ^ rest.length := Nat.mul_le_mul_right _ hb
      _ = 256 ^ (rest.length + 1) := by ring

/-- Words of the same size with the same value are the same. -/
theorem eq_of_ofBytes_eq {a b : Bytes} (hlength : a.length = b.length)
    (h : ofBytes a = ofBytes b) : a = b := by
  induction a generalizing b with
  | nil => exact (List.length_eq_zero_iff.1 hlength.symm).symm
  | cons x a ih =>
    cases b with
    | nil => cases hlength
    | cons y b =>
      have htail : a.length = b.length := Nat.succ.inj hlength
      rw [ofBytes_cons, ofBytes_cons, htail, Nat.mul_comm, Nat.mul_comm y.toNat] at h
      have ha := ofBytes_lt a
      have hb := ofBytes_lt b
      have hpos : 0 < 256 ^ b.length := Nat.pow_pos (by decide)
      rw [htail] at ha
      -- the first byte is the quotient, and the value of the rest is the remainder
      have hquotient := congrArg (· / 256 ^ b.length) h
      have hremainder := congrArg (· % 256 ^ b.length) h
      simp only [Nat.mul_add_div hpos, Nat.div_eq_of_lt ha, Nat.div_eq_of_lt hb,
        Nat.add_zero] at hquotient
      simp only [Nat.mul_add_mod, Nat.mod_eq_of_lt ha, Nat.mod_eq_of_lt hb] at hremainder
      rw [UInt8.toNat_inj.1 hquotient, ih htail hremainder]

/-- Bytes are written as they were read. -/
theorem toBytes_ofBytes (bytes : Bytes) : toBytes bytes.length (ofBytes bytes) = bytes := by
  apply eq_of_ofBytes_eq (length_toBytes ..)
  rw [ofBytes_toBytes_of_lt (ofBytes_lt bytes)]

theorem toInt64_ofInt64 (value : Int64) : toInt64 (ofBytes (ofInt64 value)) = value := by
  have hlt : value.toUInt64.toNat < 256 ^ 8 := value.toUInt64.toNat_lt
  rw [ofInt64, ofBytes_toBytes_of_lt hlt, toInt64, UInt64.ofNat_toNat, Int64.toInt64_toUInt64]

theorem ofInt64_toInt64 {bytes : Bytes} (h : bytes.length = 8) :
    ofInt64 (toInt64 (ofBytes bytes)) = bytes := by
  have hlt := ofBytes_lt bytes
  rw [h] at hlt
  rw [ofInt64, toInt64, UInt64.toUInt64_toInt64, UInt64.toNat_ofNat_of_lt' hlt, ← h,
    toBytes_ofBytes]

end Word

namespace Variable

variable {w : Width}

/-- As many values have the bytes of a variable as its bits. -/
theorem pow_size (w : Width) : 256 ^ w.size = 2 ^ w.bits := by cases w <;> rfl

theorem ofBytes_toBytes (v : Variable w) : ofBytes v.toBytes = v := by
  have hlt : v.toNat < 256 ^ w.size := by
    rw [pow_size]
    exact v.isLt
  rw [ofBytes, toBytes, Word.ofBytes_toBytes_of_lt hlt, BitVec.ofNat_toNat, BitVec.setWidth_eq]

theorem toBytes_ofBytes {bytes : Bytes} (h : bytes.length = w.size) :
    (ofBytes bytes : Variable w).toBytes = bytes := by
  have hlt := Word.ofBytes_lt bytes
  rw [h, pow_size] at hlt
  rw [toBytes, ofBytes, BitVec.toNat_ofNat, Nat.mod_eq_of_lt hlt, ← h, Word.toBytes_ofBytes]

end Variable

end LogCodec
