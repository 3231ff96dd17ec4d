import LogCodec.Bytes

/-! # Big-endian words

    All numbers of a stream are stored with the most significant byte first.
    A word of `n` bytes holds its value modulo `256 ^ n`; reading is the
    inverse of writing on values below that bound. -/

namespace LogCodec.Word

/-- The low `n` bytes of `value`, most significant first. -/
def toBytes : (n : Nat) → (value : Nat) → Bytes
  | 0, _ => []
  | n + 1, value => UInt8.ofNat (value >>> (8 * n)) :: toBytes n value

/-- The value of `bytes`, read with the most significant byte first. -/
def ofBytes (bytes : Bytes) : Nat :=
  bytes.foldl (fun value b => value * 256 + b.toNat) 0

@[simp] theorem length_toBytes (n value : Nat) : (toBytes n value).length = n := by
  induction n with
  | zero => rfl
  | succ n ih => simp [toBytes, ih]

/-- The signed 64-bit number whose two's complement is `value` modulo `2 ^ 64`. -/
def toInt64 (value : Nat) : Int64 := (UInt64.ofNat value).toInt64

/-- The eight bytes of a signed 64-bit number in two's complement. -/
def ofInt64 (value : Int64) : Bytes := toBytes 8 value.toUInt64.toNat

@[simp] theorem length_ofInt64 (value : Int64) : (ofInt64 value).length = 8 :=
  length_toBytes 8 _

end LogCodec.Word
