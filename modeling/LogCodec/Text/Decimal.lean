import LogCodec.Bytes

/-! # Decimal numbers

    - `digits`: the shortest decimal text of a natural number, and `padded`: one
      with zeros in front.
    - `ofInteger`: the text of an integer, with `-` in front of a negative one.
    - `canonical?` and `integer?`: the number that such a text denotes; texts
      that are not the text of a number, such as `007`, are refused.
    - `readInt64`: a signed 64-bit number with an optional sign, and why a
      text is not one. -/

namespace LogCodec.Decimal

/-- The byte of the decimal digit `d`. -/
def digit (d : Nat) : UInt8 := UInt8.ofNat (0x30 + d)

/-- The value of a digit byte. -/
def digitValue (b : UInt8) : Nat := b.toNat - 0x30

/-- The decimal text of `n`, without leading zeros. -/
def digits (n : Nat) : Bytes :=
  if n < 10 then [digit n] else digits (n / 10) ++ [digit (n % 10)]

/-- A text with zeros in front, up to a count of digits. -/
def padded (count : Nat) (text : Bytes) : Bytes :=
  List.replicate (count - text.length) 0x30 ++ text

/-- The decimal text of an integer. -/
def ofInteger (i : Int) : Bytes :=
  if i < 0 then 0x2D :: digits i.natAbs else digits i.natAbs

/-- The number whose digits, most significant first, are the bytes of a text
    of digits. -/
def ofDigits (text : Bytes) : Nat :=
  text.foldl (fun n b => n * 10 + digitValue b) 0

/-- The natural number whose text this is: digits only, and no leading zero
    but in `0` itself. -/
def canonical? (text : Bytes) : Option Nat :=
  if text ≠ [] ∧ text.all Ascii.isDigit ∧ (text.head? = some 0x30 → text.length = 1) then
    some (ofDigits text)
  else none

/-- The integer whose text this is.  There is no `+`, and `-0` is no text. -/
def integer? : Bytes → Option Int
  | 0x2D :: text => ((canonical? text).filter (· ≠ 0)).map fun n : Nat => -(n : Int)
  | text => (canonical? text).map fun n : Nat => (n : Int)

/-! ### Signed 64-bit numbers -/

/-- Why a text is not a signed 64-bit number. -/
inductive Fault where
  | empty
  | invalidDigit
  | tooLarge
  | tooSmall
deriving DecidableEq

namespace Fault

/-- The wording of each fault. -/
def message : Fault → String
  | empty => "cannot parse integer from empty string"
  | invalidDigit => "invalid digit found in string"
  | tooLarge => "number too large to fit in target type"
  | tooSmall => "number too small to fit in target type"

end Fault

/-- The least signed 64-bit number. -/
def int64Min : Int := -0x8000000000000000

/-- The greatest signed 64-bit number. -/
def int64Max : Int := 0x7FFFFFFFFFFFFFFF

/-- Adds digits to `n` from the left, as long as the number stays within
    `limit`.  A byte that is no digit and a number that grows too large are
    both faults; the one met first is reported. -/
def readDigits (limit : Nat) (overflow : Fault) (n : Nat) : Bytes → Except Fault Nat
  | [] => .ok n
  | b :: rest =>
    if Ascii.isDigit b then
      if n * 10 + digitValue b ≤ limit then
        readDigits limit overflow (n * 10 + digitValue b) rest
      else .error overflow
    else .error .invalidDigit

/-- A signed 64-bit number: an optional `+` or `-`, then digits, of which
    leading zeros are allowed. -/
def readInt64 : Bytes → Except Fault Int64
  | [] => .error .empty
  | [0x2B] => .error .invalidDigit
  | [0x2D] => .error .invalidDigit
  | 0x2D :: rest =>
    (readDigits int64Min.natAbs .tooSmall 0 rest).map fun n : Nat => Int64.ofInt (-n)
  | 0x2B :: rest => (readDigits int64Max.toNat .tooLarge 0 rest).map fun n : Nat => Int64.ofInt n
  | text => (readDigits int64Max.toNat .tooLarge 0 text).map fun n : Nat => Int64.ofInt n

end LogCodec.Decimal
