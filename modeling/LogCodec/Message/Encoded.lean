import LogCodec.Message.LogType
import LogCodec.Message.Number
import LogCodec.Message.Run

/-! # Encoded messages

    An encoded message is a log type beside its variables.  Inline variables
    are a list; dictionary variables are one text with the end of each.  Order
    alone says which variable belongs to which placeholder.

    - `Encoded.ofMessage` encodes: the message is cut into runs, each run
      becomes a part, and the fields are read off the parts.
    - `Encoded.dictVar?` is one dictionary variable.
    - `Encoded.placeholderCounts` counts the placeholders by kind. -/

namespace LogCodec

/-- The end of a dictionary variable, a signed 32-bit number. -/
abbrev Offset := Variable .fourByte

/-- A log message separated into its log type and its variables. -/
structure Encoded (w : Width) where
  /-- The static text with a placeholder for each variable. -/
  logType : Bytes
  /-- The integer and float variables, in order. -/
  inline : List (Variable w)
  /-- The dictionary variables, one after another. -/
  dictionary : Bytes
  /-- Where each dictionary variable ends. -/
  ends : List Offset
deriving DecidableEq

/-! ### Parts -/

/-- What becomes of one run. -/
inductive Part (w : Width) where
  /-- Static text. -/
  | text (bytes : Bytes)
  | integer (v : Variable w)
  | float (v : Variable w)
  | dictionary (token : Bytes)

namespace Part

variable {w : Width}

/-- A variable is stored as an integer if it can be, else as a float if it can
    be, else in the dictionary. -/
def ofToken (w : Width) (token : Bytes) : Part w :=
  match Number.encodeInteger? w token with
  | some v => integer v
  | none =>
    match Number.encodeFloat? w token with
    | some v => float v
    | none => dictionary token

/-- The part of a run. -/
def ofRun (w : Width) (run : Run) : Part w :=
  if run.isVariable then ofToken w run.bytes else text run.bytes

/-- What stands in the log type for the part. -/
def logType : Part w → Bytes
  | text bytes => LogType.escape bytes
  | integer _ => [Placeholder.integer.toByte]
  | float _ => [Placeholder.float.toByte]
  | dictionary _ => [Placeholder.dictionary.toByte]

/-- The inline variable of the part. -/
def inline? : Part w → Option (Variable w)
  | integer v | float v => some v
  | _ => none

/-- The dictionary variable of the part. -/
def token? : Part w → Option Bytes
  | dictionary token => some token
  | _ => none

end Part

namespace Encoded

variable {w : Width}

/-! ### Encoding -/

/-- Where each of several texts ends when they are put one after another from
    position `start` on. -/
def endsFrom (start : Nat) : List Bytes → List Nat
  | [] => []
  | entry :: rest => (start + entry.length) :: endsFrom (start + entry.length) rest

/-- The greatest end of a dictionary variable. -/
def endMax : Nat := 0x7FFFFFFF

/-- The fields of a list of parts. -/
def assemble (parts : List (Part w)) : Encoded w :=
  let entries := parts.filterMap Part.token?
  { logType := parts.flatMap Part.logType
    inline := parts.filterMap Part.inline?
    dictionary := entries.flatten
    ends := (endsFrom 0 entries).map (BitVec.ofNat _) }

/-- The encoded form of a list of parts.  It fails only when a dictionary
    variable ends past `endMax`. -/
def ofParts (parts : List (Part w)) : Result (Encoded w) :=
  match (endsFrom 0 (parts.filterMap Part.token?)).find? (endMax < ·) with
  | some size => .error (.encode (.dictionaryTooLong size))
  | none => .ok (assemble parts)

/-- The encoded form of a message. -/
def ofMessage (w : Width) (message : Bytes) : Result (Encoded w) :=
  ofParts ((Run.ofMessage message).map (Part.ofRun w))

/-! ### Views -/

/-- How many placeholders the log type has, first for inline variables, then
    for dictionary variables. -/
def placeholderCounts (e : Encoded w) : Nat × Nat :=
  let items := LogType.items e.logType
  (items.countP fun i => i == .placeholder .integer || i == .placeholder .float,
    items.count (.placeholder .dictionary))

/-- The dictionary variable between two offsets, if they are in order and within
    the dictionary. -/
def slice? (dictionary : Bytes) (start stop : Int) : Option Bytes :=
  if 0 ≤ start ∧ start ≤ stop ∧ stop ≤ dictionary.length then
    some ((dictionary.drop start.toNat).take (stop - start).toNat)
  else none

/-- The dictionary variable at an index.  It begins where the one before it
    ends. -/
def dictVar? (e : Encoded w) (index : Nat) : Option Bytes :=
  match e.ends[index]? with
  | none => none
  | some stop =>
    let start : Int := if index = 0 then 0 else (e.ends[index - 1]?.getD 0).toInt
    slice? e.dictionary start stop.toInt

end Encoded

end LogCodec
