/-! # Numerals

    A number of a JSON text is checked for its form and for its size: it must
    not be too large for a binary64 number.  Its value is not used otherwise.

    The size is judged as a fast reader judges it.  Digits are gathered into a
    significand of 64 bits.  Digits of the integer that no longer fit count
    towards the exponent, digits of the fraction that no longer fit are
    dropped.  The significand and the power of ten are rounded to 53 bits each,
    and their product must be finite after one more rounding. -/

namespace LogCodec.Json.Numeral

/-! ### Form -/

/-- The parts of a numeral. -/
structure Parts where
  /-- Digits before the point. -/
  integer : List Char
  /-- Digits after the point. -/
  fraction : List Char
  /-- Is there a minus sign in the exponent? -/
  exponentNegative : Bool
  /-- Digits of the exponent. -/
  exponent : List Char

/-- Digits at the front, and the rest. -/
def spanDigits (text : List Char) : List Char × List Char :=
  (text.takeWhile Char.isDigit, text.dropWhile Char.isDigit)

/-- The exponent of a numeral, up to its end. -/
def exponentPart? (integer fraction : List Char) : List Char → Option Parts
  | [] => some ⟨integer, fraction, false, []⟩
  | c :: text =>
    if c = 'e' ∨ c = 'E' then
      let (negative, digits) :=
        match text with
        | '+' :: digits => (false, digits)
        | '-' :: digits => (true, digits)
        | digits => (false, digits)
      if digits ≠ [] ∧ digits.all Char.isDigit then some ⟨integer, fraction, negative, digits⟩
      else none
    else none

/-- The parts of a numeral without its sign.  A leading zero stands alone, and a
    point is followed by a digit. -/
def unsigned? (text : List Char) : Option Parts :=
  let (integer, rest) := spanDigits text
  if integer = [] ∨ (integer.head? = some '0' ∧ integer ≠ ['0']) then none
  else
    match rest with
    | '.' :: rest =>
      let (fraction, rest) := spanDigits rest
      if fraction = [] then none else exponentPart? integer fraction rest
    | rest => exponentPart? integer [] rest

/-- The parts of a numeral. -/
def parts? : List Char → Option Parts
  | '-' :: text => unsigned? text
  | text => unsigned? text

/-! ### Size -/

/-- The value of a digit. -/
def digitValue (c : Char) : Nat := c.toNat - '0'.toNat

/-- The greatest significand. -/
def significandMax : Nat := 0xFFFFFFFFFFFFFFFF

/-- Gathers digits as long as the significand stays within its bound.  Gives the
    significand and how many digits were gathered. -/
def gather (significand : Nat) : List Char → Nat × Nat
  | [] => (significand, 0)
  | c :: rest =>
    if significand * 10 + digitValue c ≤ significandMax then
      let (final, count) := gather (significand * 10 + digitValue c) rest
      (final, count + 1)
    else (significand, 0)

/-- The value of a text of digits. -/
def value (digits : List Char) : Nat := digits.foldl (fun n c => n * 10 + digitValue c) 0

/-- `n` rounded to the nearest number of 53 significant bits, a tie going to the
    one that ends in a zero bit. -/
def round53 (n : Nat) : Nat :=
  let unit := 1 <<< (n.log2 + 1 - 53)
  let quotient := n / unit
  let double := 2 * (n % unit)
  if double > unit ∨ (double = unit ∧ quotient % 2 = 1) then (quotient + 1) * unit
  else quotient * unit

/-- Is the number too large for a binary64 number? -/
def tooLarge (p : Parts) : Bool :=
  let (whole, taken) := gather 0 p.integer
  let (significand, places) := gather whole p.fraction
  let power : Int := if p.exponentNegative then -(value p.exponent : Int) else value p.exponent
  let exponent : Int := ((p.integer.length - taken : Nat) : Int) - (places : Int) + power
  significand ≠ 0 && 0 < exponent &&
    (308 < exponent ||
      1 <<< 1024 ≤ round53 (round53 significand * round53 (Nat.pow 10 exponent.toNat)))

/-- Is the text a number of acceptable size? -/
def isAcceptable (text : List Char) : Bool :=
  match parts? text with
  | some p => !tooLarge p
  | none => false

end LogCodec.Json.Numeral
