import LogCodec.Word

/-! # Encoding widths

    A stream stores its inline variables in four or in eight bytes each.  The
    width also decides how timestamps are kept: as differences from the event
    before in a four-byte stream, as they are in an eight-byte stream.

    - `Width`: the two widths, with the bit layout of an inline float.
    - `Variable w`: the bits of one inline variable. -/

namespace LogCodec

/-- Width of the inline variables of a stream. -/
inductive Width where
  | fourByte
  | eightByte
deriving DecidableEq, Inhabited

namespace Width

/-- Bytes of one inline variable. -/
def size : Width → Nat
  | fourByte => 4
  | eightByte => 8

/-- Bits of one inline variable. -/
def bits (w : Width) : Nat := 8 * w.size

/-- The byte that stands for the width in a preamble: its size. -/
def toByte (w : Width) : UInt8 := UInt8.ofNat w.size

/-- The width a preamble byte stands for. -/
def ofByte? : UInt8 → Option Width
  | 4 => some fourByte
  | 8 => some eightByte
  | _ => none

theorem ofByte?_toByte (w : Width) : ofByte? w.toByte = some w := by cases w <;> rfl

/-- The name shown to users. -/
def name : Width → String
  | fourByte => "four-byte"
  | eightByte => "eight-byte"

/-! ### Layout of an inline float

    From the most significant bit: the sign, unused bits, the digits read as
    one integer, the count of digits less one, and the count of digits after
    the point less one. -/

/-- The most digits that an inline float has. -/
def floatDigitsMax : Width → Nat
  | fourByte => 8
  | eightByte => 16

/-- Bits that hold the digits of an inline float. -/
def floatDigitsBits : Width → Nat
  | fourByte => 25
  | eightByte => 54

/-- Bits of each of the two counts of an inline float. -/
def floatCountBits : Width → Nat
  | fourByte => 3
  | eightByte => 4

end Width

/-! ### Variables -/

/-- The bits of one inline variable, an integer in two's complement or the
    fields of a float. -/
abbrev Variable (w : Width) := BitVec w.bits

namespace Variable

variable {w : Width}

/-- The variable that holds the integer `value`, if it is in range. -/
def ofInt? (value : Int) : Option (Variable w) :=
  let v := BitVec.ofInt w.bits value
  if v.toInt = value then some v else none

/-- The stored form: the bits, most significant byte first. -/
def toBytes (v : Variable w) : Bytes := Word.toBytes w.size v.toNat

/-- The variable stored in `bytes`. -/
def ofBytes (bytes : Bytes) : Variable w := BitVec.ofNat w.bits (Word.ofBytes bytes)

@[simp] theorem length_toBytes (v : Variable w) : v.toBytes.length = w.size :=
  Word.length_toBytes _ _

end Variable

end LogCodec
