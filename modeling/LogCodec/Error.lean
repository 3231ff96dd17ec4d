import LogCodec.Text.Decimal
import LogCodec.Text.Quoted

/-! # Errors

    What can go wrong when messages are encoded and decoded and when streams
    are written and read.  Each error is a cause; `Error.message` has the
    wording.

    - `Error.incomplete` alone may be resolved by more bytes.
    - `Error.endOfStream` is the expected end of a well-formed stream.
    - Every other error is final for the stream.

    Each family has a constructor `other` for a cause that is known by its
    text alone. -/

namespace LogCodec

/-! ### Causes -/

/-- Why an encoded message cannot be put together. -/
inductive DecodeFault where
  /-- An integer placeholder after the last inline variable. -/
  | integerWithoutVariable (available : Nat)
  /-- A float placeholder after the last inline variable. -/
  | floatWithoutVariable (available : Nat)
  /-- A float whose fields contradict one another. -/
  | malformedFloat (bits digitCount afterPoint value : Nat)
  /-- A dictionary placeholder whose entry is missing or has no valid bounds. -/
  | noDictionaryEntry (index : Nat) (ends : List Int) (dictionarySize : Nat)
  /-- A reserved byte that is no placeholder. -/
  | unknownPlaceholder (byte : UInt8)
  /-- An escape byte with nothing after it. -/
  | danglingEscape
  /-- Variables that no placeholder used. -/
  | unusedVariables (usedInline inline usedDictionary dictionary : Nat)
  | other (reason : String)
deriving DecidableEq

/-- Why something cannot be written in the stream format. -/
inductive EncodeFault where
  /-- The dictionary variables are too long for their end offsets. -/
  | dictionaryTooLong (size : Nat)
  /-- A length does not fit into its field. -/
  | lengthTooLong (length : Nat)
  /-- The metadata of a preamble is longer than its length field allows. -/
  | metadataTooLong (size limit : Nat)
  | other (reason : String)
deriving DecidableEq

/-- Why bytes are not a stream. -/
inductive Corruption where
  /-- The first bytes are not the magic number. -/
  | badMagic (bytes : Bytes)
  /-- The width byte stands for no width. -/
  | badWidth (byte : UInt8)
  /-- A record starts with a byte that is no tag. -/
  | unknownTag (byte : UInt8)
  | other (reason : String)
deriving DecidableEq

/-- Why the metadata of a preamble is refused. -/
inductive MetadataFault where
  /-- The metadata is not a JSON object with strings for the known keys. -/
  | notAnObjectOfStrings
  /-- The reference timestamp is not a number. -/
  | referenceTimestamp (text : String) (cause : Decimal.Fault)
  | other (reason : String)
deriving DecidableEq

/-- What went wrong. -/
inductive Error where
  | decode (fault : DecodeFault)
  | encode (fault : EncodeFault)
  | endOfStream
  | corrupted (fault : Corruption)
  | metadata (fault : MetadataFault)
  | incomplete
  | unsupportedMetadata (kind : UInt8)
  | noMatch
  | invalidQuery (reason : String)
  | closed
  /-- The byte source or sink failed. -/
  | io (reason : String)
deriving DecidableEq

/-! ### Wording -/

/-- Values between brackets, separated by commas. -/
def bracketed (items : List String) : String := "[" ++ ", ".intercalate items ++ "]"

def DecodeFault.message : DecodeFault → String
  | integerWithoutVariable available =>
    s!"integer placeholder without variable; {available} variables"
  | floatWithoutVariable available =>
    s!"float placeholder without variable; {available} variables"
  | malformedFloat bits digitCount afterPoint value =>
    "malformed float variable 0x" ++ Hex.upper bits ++
      s!"; {digitCount} digits, {afterPoint} after point, value {value}"
  | noDictionaryEntry index ends dictionarySize =>
    s!"dictionary placeholder {index} has no valid variable; offsets " ++
      bracketed (ends.map toString) ++ s!", dictionary length {dictionarySize}"
  | unknownPlaceholder byte => "unknown placeholder byte 0x" ++ Hex.upperByte byte
  | danglingEscape => "logtype ends with an escape byte"
  | unusedVariables usedInline inline usedDictionary dictionary =>
    s!"unused variables; used {usedInline} of {inline} inline, " ++
      s!"{usedDictionary} of {dictionary} dictionary"
  | other reason => reason

def EncodeFault.message : EncodeFault → String
  | dictionaryTooLong size => s!"dictionary variables length {size} exceeds i32"
  | lengthTooLong length => s!"length {length} exceeds u32"
  | metadataTooLong size limit => s!"metadata length {size} exceeds maximum {limit}"
  | other reason => reason

def Corruption.message : Corruption → String
  | badMagic bytes => "bad magic number " ++ bracketed (bytes.map Hex.upperByte)
  | badWidth byte => s!"bad encoding width {byte.toNat}"
  | unknownTag byte => "unknown tag 0x" ++ Hex.upperByte byte
  | other reason => reason

def MetadataFault.message : MetadataFault → String
  | notAnObjectOfStrings => "not a JSON object of strings"
  | referenceTimestamp text cause =>
    "reference timestamp " ++ Quoted.string text ++ ": " ++ cause.message
  | other reason => reason

namespace Error

/-- The text of an error. -/
def message : Error → String
  | decode fault => "decode error: " ++ fault.message
  | encode fault => "encode error: " ++ fault.message
  | endOfStream => "end of IR stream"
  | corrupted fault => "corrupted IR: " ++ fault.message
  | metadata fault => "corrupted metadata: " ++ fault.message
  | incomplete => "incomplete IR"
  | unsupportedMetadata kind => "unsupported metadata kind 0x" ++ Hex.lowerByte kind
  | noMatch => "no matching log event"
  | invalidQuery reason => "invalid wildcard query: " ++ reason
  | closed => "used after close"
  | io reason => "I/O error: " ++ reason

/-- The text of an error and of the failure below it, if there is one. -/
def fullMessage (e : Error) : String :=
  match e with
  | io reason => e.message ++ ": " ++ reason
  | _ => e.message

/-- May more bytes resolve the error? -/
def isRetryable : Error → Bool
  | incomplete => true
  | _ => false

/-- Is this the expected end of a stream? -/
def isEndOfStream : Error → Bool
  | endOfStream => true
  | _ => false

end Error

/-- Result of the functions that may fail. -/
abbrev Result := Except Error

theorem Result.bind_eq_ok_iff {α β : Type} {x : Result α} {f : α → Result β} {b : β} :
    x >>= f = .ok b ↔ ∃ a, x = .ok a ∧ f a = .ok b := by
  cases x with
  | error e => simp [bind, Except.bind]
  | ok a => simp [bind, Except.bind]

theorem Result.map_eq_ok_iff {α β : Type} {x : Result α} {f : α → β} {b : β} :
    x.map f = .ok b ↔ ∃ a, x = .ok a ∧ f a = b := by
  cases x with
  | error e => simp [Except.map]
  | ok a => simp [Except.map]

end LogCodec
