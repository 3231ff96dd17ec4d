import LogCodec.Error
import LogCodec.Width

/-! # Inline numbers

    A variable is stored inline when it is the text of a number and the same
    text comes back from the stored bits.

    - Integers: the texts of `Decimal.integer?` within the range of the width.
    - Floats: an optional `-`, then digits with exactly one point and at least
      one digit after it.  The digits are stored as one integer beside how many
      there are and how many stand after the point, so that leading and
      trailing zeros are kept. -/

namespace LogCodec.Number

variable {w : Width}

/-! ### Integers -/

/-- The integer variable with this text. -/
def encodeInteger? (w : Width) (token : Bytes) : Option (Variable w) :=
  (Decimal.integer? token).bind Variable.ofInt?

/-- The text of an integer variable. -/
def integerText (v : Variable w) : Bytes := Decimal.ofInteger v.toInt

/-! ### Floats -/

/-- The fields of a float variable. -/
structure FloatFields where
  /-- Is there a `-` in front? -/
  negative : Bool
  /-- All digits, read as one integer. -/
  digits : Nat
  /-- How many digits there are. -/
  digitCount : Nat
  /-- How many of them stand after the point. -/
  afterPoint : Nat
deriving DecidableEq

namespace FloatFields

/-- The bits of the fields.  The two counts are at least one and are stored
    less one. -/
def toVariable (w : Width) (f : FloatFields) : Variable w :=
  BitVec.ofNat w.bits
    ((if f.negative then 1 <<< (w.bits - 1) else 0)
      + f.digits <<< (2 * w.floatCountBits)
      + (f.digitCount - 1) <<< w.floatCountBits
      + (f.afterPoint - 1))

/-- The fields of the bits.  Bits between the sign and the digits are not
    looked at. -/
def ofVariable (v : Variable w) : FloatFields where
  negative := v.msb
  digits := v.toNat >>> (2 * w.floatCountBits) % 1 <<< w.floatDigitsBits
  digitCount := v.toNat >>> w.floatCountBits % 1 <<< w.floatCountBits + 1
  afterPoint := v.toNat % 1 <<< w.floatCountBits + 1

/-- The fields of an unsigned text: the digits in front of the only point and
    those after it. -/
def ofParts (negative : Bool) (front back : Bytes) : FloatFields where
  negative := negative
  digits := Decimal.ofDigits (front ++ back)
  digitCount := front.length + back.length
  afterPoint := back.length

/-- The fields of a text without sign, if it has the form of a float. -/
def ofUnsigned? (negative : Bool) (text : Bytes) : Option FloatFields :=
  match text.dropWhile Ascii.isDigit with
  | 0x2E :: back =>
    if back ≠ [] ∧ back.all Ascii.isDigit then
      some (ofParts negative (text.takeWhile Ascii.isDigit) back)
    else none
  | _ => none

/-- The fields of a text, if it has the form of a float. -/
def ofText? : Bytes → Option FloatFields
  | 0x2D :: text => ofUnsigned? true text
  | text => ofUnsigned? false text

/-- Do the fields fit into a variable? -/
def Fits (w : Width) (f : FloatFields) : Prop :=
  f.digitCount ≤ w.floatDigitsMax ∧ f.digits < 1 <<< w.floatDigitsBits

instance (w : Width) (f : FloatFields) : Decidable (f.Fits w) :=
  inferInstanceAs (Decidable (_ ∧ _))

/-- The text of the fields: the digits, filled up with zeros on the left, with
    the point in its place. -/
def text (f : FloatFields) : Bytes :=
  let digits := Decimal.padded f.digitCount (Decimal.digits f.digits)
  (if f.negative then [0x2D] else [])
    ++ digits.take (f.digitCount - f.afterPoint)
    ++ 0x2E :: digits.drop (f.digitCount - f.afterPoint)

/-- The fields have a text when no digit and no place after the point is in
    excess of the count. -/
def Consistent (f : FloatFields) : Prop :=
  (Decimal.digits f.digits).length ≤ f.digitCount ∧ f.afterPoint ≤ f.digitCount

instance (f : FloatFields) : Decidable f.Consistent :=
  inferInstanceAs (Decidable (_ ∧ _))

end FloatFields

/-- The float variable with this text. -/
def encodeFloat? (w : Width) (token : Bytes) : Option (Variable w) :=
  ((FloatFields.ofText? token).filter fun f => decide (f.Fits w)).map (·.toVariable w)

/-- The text of a float variable. -/
def floatText (v : Variable w) : Except DecodeFault Bytes :=
  let f := FloatFields.ofVariable v
  if f.Consistent then .ok f.text
  else .error (.malformedFloat v.toNat f.digitCount f.afterPoint f.digits)

end LogCodec.Number
