import LogCodec.Error
import LogCodec.Stream.Cursor

/-! # Cursors that are moved

    Reads move a cursor that stands in a buffer.  A read of several parts moves it past
    each part in turn, and has to take it back when a later part is not complete.  Lists of
    variables are put behind what the list of the caller holds already.

    - `Cursor.InPlace`: a buffer and a place in it.
    - `Cursor.InPlace.readBytes`: the read that all others but `readByte` are made of. -/

namespace LogCodec

/-- A buffer, and how many of its bytes were read. -/
structure Cursor.InPlace where
  buffer : Bytes
  pos : Nat
deriving DecidableEq

namespace Cursor.InPlace

/-- The cursor at the front of a buffer. -/
def ofBytes (buffer : Bytes) : InPlace := ⟨buffer, 0⟩

/-- How many bytes are left. -/
def remaining (x : InPlace) : Nat := x.buffer.length - x.pos

/-- The next byte, without moving. -/
def peek (x : InPlace) : Result UInt8 :=
  match x.buffer[x.pos]? with
  | some b => .ok b
  | none => .error .incomplete

/-! ### Single fields -/

/-- The next byte. -/
def readByte (x : InPlace) : Result UInt8 × InPlace :=
  match x.peek with
  | .ok b => (.ok b, { x with pos := x.pos + 1 })
  | .error error => (.error error, x)

/-- The next `n` bytes. -/
def readBytes (n : Nat) (x : InPlace) : Result Bytes × InPlace :=
  if x.remaining < n then (.error .incomplete, x)
  else (.ok ((x.buffer.drop x.pos).take n), { x with pos := x.pos + n })

/-- What the next `n` bytes stand for. -/
def readValue {α : Type} (n : Nat) (value : Bytes → α) (x : InPlace) : Result α × InPlace :=
  match x.readBytes n with
  | (.ok bytes, x) => (.ok (value bytes), x)
  | (.error error, x) => (.error error, x)

def readUInt16 : InPlace → Result UInt16 × InPlace :=
  readValue 2 fun bytes => UInt16.ofNat (Word.ofBytes bytes)

/-- A length or a count. -/
def readUInt32 : InPlace → Result UInt32 × InPlace :=
  readValue lengthSize fun bytes => UInt32.ofNat (Word.ofBytes bytes)

def readInt64 : InPlace → Result Int64 × InPlace :=
  readValue 8 fun bytes => Word.toInt64 (Word.ofBytes bytes)

/-! ### Fields of several parts -/

/-- A length and that many bytes. -/
def readCounted (x : InPlace) : Result Bytes × InPlace :=
  match x.readUInt32 with
  | (.error error, after) => (.error error, after)
  | (.ok length, after) =>
    match after.readBytes length.toNat with
    | (.error error, after) => (.error error, { after with pos := x.pos })
    | (.ok bytes, after) => (.ok bytes, after)

/-- The size of so many variables, if it is a number of 64 bits. -/
def variablesSize? (count : UInt32) (w : Width) : Option Nat :=
  if count.toNat * w.size < UInt64.size then some (count.toNat * w.size) else none

/-- A count and that many variables, put behind those of the list.  Gives the list as it is
    afterwards. -/
def readVariables (w : Width) (out : List (Variable w)) (x : InPlace) :
    (Result Unit × List (Variable w)) × InPlace :=
  match x.readUInt32 with
  | (.error error, after) => ((.error error, out), after)
  | (.ok count, after) =>
    match variablesSize? count w with
    | none =>
      ((.error (.corrupted (.other s!"variable count {count} overflows")), out), after)
    | some size =>
      match after.readBytes size with
      | (.error error, after) => ((.error error, out), { after with pos := x.pos })
      | (.ok bytes, after) =>
        ((.ok (), out ++ splitVariables w (bytes.length / w.size) bytes), after)

/-- End offsets are stored as variables of four bytes. -/
def readOffsets : List (Variable .fourByte) → InPlace →
    (Result Unit × List (Variable .fourByte)) × InPlace :=
  readVariables .fourByte

end Cursor.InPlace

end LogCodec
