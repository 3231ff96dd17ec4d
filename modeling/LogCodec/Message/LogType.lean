import LogCodec.Bytes

/-! # Log types

    A log type is the static text of a message with a placeholder byte for
    each variable.  Static bytes that could be taken for a placeholder, and
    the escape byte itself, are written after an escape byte.

    - `LogType.escape` writes static text.
    - `LogType.items` reads a log type from the left. -/

namespace LogCodec

/-- The kind of a variable. -/
inductive Placeholder where
  | integer
  | dictionary
  | float
deriving DecidableEq

namespace Placeholder

/-- The byte that stands for a variable of this kind. -/
def toByte : Placeholder → UInt8
  | integer => 0x11
  | dictionary => 0x12
  | float => 0x13

/-- The kind a byte stands for. -/
def ofByte? : UInt8 → Option Placeholder
  | 0x11 => some integer
  | 0x12 => some dictionary
  | 0x13 => some float
  | _ => none

end Placeholder

namespace LogType

/-! ### Escaping -/

/-- The backslash: the byte after it is literal. -/
def escapeByte : UInt8 := 0x5C

/-- Bytes that are kept for placeholders, whether in use or not. -/
def isReserved (b : UInt8) : Bool := 0x10 ≤ b && b ≤ 0x1F

/-- Must a static byte be written after an escape byte? -/
def needsEscape (b : UInt8) : Bool := b == escapeByte || isReserved b

/-- Static text as it stands in a log type. -/
def escape (text : Bytes) : Bytes :=
  text.flatMap fun b => if needsEscape b then [escapeByte, b] else [b]

/-! ### Reading -/

/-- One item of a log type. -/
inductive Item where
  /-- A static byte, escaped or not. -/
  | literal (b : UInt8)
  | placeholder (kind : Placeholder)
  /-- A reserved byte that is no placeholder. -/
  | unknown (b : UInt8)
  /-- An escape byte at the very end. -/
  | dangling
deriving DecidableEq

/-- The item that an unescaped byte is. -/
def Item.ofByte (b : UInt8) : Item :=
  match Placeholder.ofByte? b with
  | some kind => .placeholder kind
  | none => if isReserved b then .unknown b else .literal b

/-- The items of a log type, from left to right. -/
def items : Bytes → List Item
  | [] => []
  | [b] => if b = escapeByte then [.dangling] else [.ofByte b]
  | b :: c :: rest =>
    if b = escapeByte then .literal c :: items rest else .ofByte b :: items (c :: rest)

end LogType

end LogCodec
