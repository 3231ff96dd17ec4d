import LogCodec.Bytes

/-! # Bits

    Compressed data is read bit by bit, from the least significant bit of each
    byte on.  Reading stops when the bits run out, or when they are no valid
    data. -/

namespace LogCodec.Gzip

/-- Why reading stopped. -/
inductive Stop where
  /-- There are no more bits. -/
  | short
  /-- The bits are not valid. -/
  | corrupt
deriving DecidableEq

/-- A place in a sequence of bits. -/
structure Bits where
  /-- The bits left of the byte being read. -/
  current : List Bool
  /-- The bytes after it. -/
  rest : Bytes

namespace Bits

/-- The bits of some bytes. -/
def ofBytes (bytes : Bytes) : Bits := ⟨[], bytes⟩

/-- How many bits are left. -/
def size (b : Bits) : Nat := b.current.length + 8 * b.rest.length

/-- The bits of a byte, the least significant first. -/
def ofByte (b : UInt8) : List Bool := (List.range 8).map b.toNat.testBit

/-- The next bit. -/
def bit (b : Bits) : Except Stop (Bool × Bits) :=
  match b.current, b.rest with
  | x :: current, rest => .ok (x, ⟨current, rest⟩)
  | [], byte :: rest =>
    match ofByte byte with
    | x :: current => .ok (x, ⟨current, rest⟩)
    | [] => .error .short
  | [], [] => .error .short

/-- A number of `n` bits, the least significant first. -/
def number (b : Bits) : (n : Nat) → Except Stop (Nat × Bits)
  | 0 => .ok (0, b)
  | n + 1 => do
    let (low, b) ← b.bit
    let (high, b) ← b.number n
    return (low.toNat + 2 * high, b)

/-- Passes the bits left of the byte being read. -/
def align (b : Bits) : Bits := { b with current := [] }

end Bits

end LogCodec.Gzip
