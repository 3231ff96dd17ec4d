import LogCodec.Text.Printable
import LogCodec.Text.Utf8

/-! # Quoted text

    Error messages and descriptions of values show text between double
    quotes.  Quotes and backslashes are escaped, control characters have
    short escapes or are written as `\u` with the code point in braces, and
    so is every other character that is not printable.

    - `Hex`: numbers and bytes in hexadecimal notation.
    - `Quoted.text`: a string between quotes.
    - `Quoted.message`: the bytes of a log message between quotes, with
      invalid UTF-8 shown byte by byte. -/

namespace LogCodec

namespace Hex

/-- The hexadecimal text of `n` in lower case, without leading zeros. -/
def lower (n : Nat) : String := String.ofList (Nat.toDigits 16 n)

/-- The hexadecimal text of `n` in upper case, without leading zeros. -/
def upper (n : Nat) : String := String.ofList ((Nat.toDigits 16 n).map Char.toUpper)

/-- Two lower-case digits. -/
def lowerByte (b : UInt8) : String :=
  if b < 16 then "0" ++ lower b.toNat else lower b.toNat

/-- Two upper-case digits. -/
def upperByte (b : UInt8) : String :=
  if b < 16 then "0" ++ upper b.toNat else upper b.toNat

end Hex

namespace Quoted

/-- A code point in braces, after `\u`. -/
def codePoint (c : Char) : String := "\\u\x7b" ++ Hex.lower c.toNat ++ "\x7d"

/-- A character that is not a quote. -/
def plain (c : Char) : String :=
  if c = '\x00' then "\\0"
  else if c = '\t' then "\\t"
  else if c = '\r' then "\\r"
  else if c = '\n' then "\\n"
  else if c = '\\' then "\\\\"
  else if Printable.isPrintable c then String.singleton c
  else codePoint c

/-- A text between double quotes, inside which single quotes stand as they
    are. -/
def text (chars : List Char) : String :=
  "\"" ++ String.join (chars.map fun c => if c = '"' then "\\\"" else plain c) ++ "\""

/-- A string between double quotes. -/
def string (s : String) : String := text s.toList

/-- One piece of a message.  Here both kinds of quotes are escaped, and the
    control characters up to U+0019 and U+007F are written with two digits. -/
def piece : Utf8.Piece → String
  | .broken bytes => String.join (bytes.map fun b => "\\x" ++ Hex.upperByte b)
  | .char c =>
    let n := c.toNat
    if c = Utf8.replacement then String.singleton c
    else if (1 ≤ n ∧ n ≤ 0x08) ∨ n = 0x0B ∨ n = 0x0C ∨ (0x0E ≤ n ∧ n ≤ 0x19) ∨ n = 0x7F then
      "\\x" ++ Hex.lowerByte (UInt8.ofNat n)
    else if c = '"' then "\\\""
    else if c = '\'' then "\\'"
    else plain c

/-- The bytes of a log message between double quotes. -/
def message (bytes : Bytes) : String :=
  "\"" ++ String.join ((Utf8.pieces bytes).map piece) ++ "\""

end Quoted

end LogCodec
