import LogCodec.Bytes

/-! # UTF-8

    Log messages need not be valid UTF-8.  A sequence of bytes is cut into
    pieces from the left: a character where one is well formed, and otherwise
    a maximal invalid part, the longest run of bytes that could still have
    begun a character.

    - `pieces`: the cut itself.
    - `lossy`: each invalid part becomes one U+FFFD.
    - `decode?`: the text of bytes without an invalid part.
    - `encode`: the bytes of a text. -/

namespace LogCodec.Utf8

/-- One step of reading UTF-8. -/
inductive Piece where
  /-- A well-formed character. -/
  | char (c : Char)
  /-- A maximal invalid part. -/
  | broken (bytes : Bytes)
deriving DecidableEq

/-! ### Leading bytes -/

/-- What a leading byte says about the bytes after it. -/
structure Lead where
  /-- The high bits of the code point. -/
  payload : Nat
  /-- How many bytes follow. -/
  more : Nat
  /-- The least byte that may follow next. -/
  low : UInt8
  /-- The greatest byte that may follow next. -/
  high : UInt8

/-- The reading of a leading byte.  Bytes that only continue a character and
    bytes that occur in no character have none.  The range of the next byte
    keeps out overlong forms, surrogates and numbers above U+10FFFF. -/
def lead? (b : UInt8) : Option Lead :=
  if b < 0x80 then some ⟨b.toNat, 0, 0x80, 0xBF⟩
  else if b < 0xC2 then none
  else if b < 0xE0 then some ⟨b.toNat - 0xC0, 1, 0x80, 0xBF⟩
  else if b = 0xE0 then some ⟨0, 2, 0xA0, 0xBF⟩
  else if b = 0xED then some ⟨0xD, 2, 0x80, 0x9F⟩
  else if b < 0xF0 then some ⟨b.toNat - 0xE0, 2, 0x80, 0xBF⟩
  else if b = 0xF0 then some ⟨0, 3, 0x90, 0xBF⟩
  else if b < 0xF4 then some ⟨b.toNat - 0xF0, 3, 0x80, 0xBF⟩
  else if b = 0xF4 then some ⟨4, 3, 0x80, 0x8F⟩
  else none

/-! ### Pieces -/

/-- Reads `more` bytes onto the code point `value`.  Gives the code point, or
    nothing when a byte is missing or out of range, and how many bytes fit. -/
def continuation : (more : Nat) → (low high : UInt8) → (value : Nat) → Bytes → Option Nat × Nat
  | 0, _, _, value, _ => (some value, 0)
  | _ + 1, _, _, _, [] => (none, 0)
  | more + 1, low, high, value, b :: rest =>
    if low ≤ b ∧ b ≤ high then
      -- only the first byte after the lead has a range of its own
      let (found, used) := continuation more 0x80 0xBF (value * 64 + (b.toNat - 0x80)) rest
      (found, used + 1)
    else (none, 0)

/-- The first piece that starts with the byte `b`, and how many of the bytes
    after `b` belong to it. -/
def firstPiece (b : UInt8) (rest : Bytes) : Piece × Nat :=
  match lead? b with
  | none => (.broken [b], 0)
  | some lead =>
    match continuation lead.more lead.low lead.high lead.payload rest with
    | (some value, used) => (.char (Char.ofNat value), used)
    | (none, used) => (.broken (b :: rest.take used), used)

/-- The pieces of a sequence of bytes, from left to right. -/
def pieces : Bytes → List Piece
  | [] => []
  | b :: rest => (firstPiece b rest).1 :: pieces (rest.drop (firstPiece b rest).2)
termination_by bytes => bytes.length
decreasing_by
  simp only [List.length_drop, List.length_cons]
  omega

/-! ### Texts -/

/-- The character that stands for an invalid part. -/
def replacement : Char := '\uFFFD'

/-- The text of any bytes, with each maximal invalid part as one U+FFFD. -/
def lossy (bytes : Bytes) : List Char :=
  (pieces bytes).map fun
    | .char c => c
    | .broken _ => replacement

/-- The text of valid UTF-8, and nothing for other bytes. -/
def decode? (bytes : Bytes) : Option (List Char) :=
  (pieces bytes).mapM fun
    | .char c => some c
    | .broken _ => none

/-- The bytes of a text. -/
def encode (text : List Char) : Bytes := text.flatMap String.utf8EncodeChar

/-- The bytes of a string. -/
def ofString (s : String) : Bytes := encode s.toList

end LogCodec.Utf8
