import LogCodec.Json.Value
import LogCodec.Stream.Cursor
import LogCodec.Stream.Event
import LogCodec.Error

/-! # Preambles

    A stream starts with a preamble: the magic number, the width, the kind of
    the metadata, the length of the metadata in two bytes, and the metadata.
    The only kind that is understood is a JSON object of strings.

    - `Blank.trim` removes the white space around a text.
    - `Preamble.toBytes` writes a preamble.
    - `Preamble.ofBytes` reads the one at the front of some bytes.  It reports
      what is wrong as soon as the byte that decides it is there. -/

namespace LogCodec

/-! ### Blanks

    They are what is removed around the reference timestamp before it is read. -/

namespace Blank

/-- The characters with the property White_Space, as closed ranges. -/
def ranges : List (Nat × Nat) := [
  (0x09, 0x0d), (0x20, 0x20), (0x85, 0x85), (0xa0, 0xa0), (0x1680, 0x1680), (0x2000, 0x200a),
  (0x2028, 0x2029), (0x202f, 0x202f), (0x205f, 0x205f), (0x3000, 0x3000)]

/-- Is the character white space? -/
def isBlank (c : Char) : Bool :=
  ranges.any fun range => range.1 ≤ c.toNat && c.toNat ≤ range.2

/-- The text without the blanks at its two ends. -/
def trim (text : List Char) : List Char :=
  ((text.dropWhile isBlank).reverse.dropWhile isBlank).reverse

end Blank

/-- What a preamble says. -/
structure Preamble where
  width : Width
  info : TimestampInfo
  /-- The time that the first event of a four-byte stream is relative to. -/
  reference : Int64
deriving DecidableEq

namespace Preamble

/-- The first bytes of every stream. -/
def magic : Bytes := [0xFD, 0x2F, 0xB5, 0x29]

/-- The kind of metadata that is a JSON object. -/
def jsonKind : UInt8 := 0x01

/-- The greatest length of the metadata. -/
def metadataMax : Nat := 65535

/-! ### Keys of the metadata -/

def patternKey : List Char := "TIMESTAMP_PATTERN".toList

def patternSyntaxKey : List Char := "TIMESTAMP_PATTERN_SYNTAX".toList

def timeZoneKey : List Char := "TZ_ID".toList

def referenceKey : List Char := "REFERENCE_TIMESTAMP".toList

/-! ### Writing -/

/-- The keys and values of the metadata.  Only four-byte streams have a reference
    timestamp. -/
def members (p : Preamble) : List (List Char × List Char) :=
  [(patternKey, p.info.pattern.toList),
    (patternSyntaxKey, p.info.patternSyntax.toList),
    (timeZoneKey, p.info.timeZone.toList)]
  ++ match p.width with
    | .fourByte => [(referenceKey, (toString p.reference.toInt).toList)]
    | .eightByte => []

/-- The metadata of a preamble. -/
def metadata (p : Preamble) : Bytes := Utf8.encode (Json.ofStrings p.members)

/-- The preamble as it stands in a stream. -/
def toBytes (p : Preamble) : Result Bytes :=
  let metadata := p.metadata
  if metadata.length ≤ metadataMax then
    .ok (magic ++ [p.width.toByte, jsonKind] ++ Word.toBytes 2 metadata.length ++ metadata)
  else .error (.encode (.metadataTooLong metadata.length metadataMax))

/-! ### Reading -/

/-- The string of a known key, empty when the key is absent or `null`. -/
def field? (key : List Char) (members : List (List Char × Json)) : Option (Option String) :=
  match Json.member? key members with
  | none | some .null => some none
  | some (.string chars) => some (some (String.ofList chars))
  | _ => none

/-- The strings of the metadata: what holds for all timestamps, and the reference
    timestamp if there is one. -/
def strings? (metadata : Bytes) : Option (TimestampInfo × Option String) :=
  match (Utf8.decode? metadata).bind Json.parse? with
  | some (.object members) => do
    let pattern ← field? patternKey members
    let patternSyntax ← field? patternSyntaxKey members
    let timeZone ← field? timeZoneKey members
    let reference ← field? referenceKey members
    return (⟨pattern.getD "", patternSyntax.getD "", timeZone.getD ""⟩, reference)
  | _ => none

/-- A reference timestamp, with blanks around it ignored. -/
def readReference (text : String) : Result Int64 :=
  match Decimal.readInt64 (Utf8.encode (Blank.trim text.toList)) with
  | .ok value => .ok value
  | .error cause => .error (.metadata (.referenceTimestamp text cause))

/-- The preamble of a width with this metadata. -/
def ofMetadata (width : Width) (metadata : Bytes) : Result Preamble :=
  match strings? metadata with
  | none => .error (.metadata .notAnObjectOfStrings)
  | some (info, reference) =>
    match width, reference with
    | .fourByte, some text => (readReference text).map fun value => ⟨width, info, value⟩
    -- in an eight-byte stream any text is accepted
    | _, _ => .ok ⟨width, info, 0⟩

/-- Fails when there are too few bytes. -/
def need {α : Type} : Option α → Result α
  | some value => .ok value
  | none => .error .incomplete

/-- The magic number.  Bytes that contradict it are refused, however few they
    are. -/
def readMagic (c : Cursor) : Result (Bytes × Cursor) :=
  let front := c.rest.take magic.length
  if front.isPrefixOf magic then need (c.take? magic.length)
  else .error (.corrupted (.badMagic front))

/-- The width. -/
def readWidth (c : Cursor) : Result (Width × Cursor) := do
  let (byte, c) ← need c.byte?
  match Width.ofByte? byte with
  | some width => .ok (width, c)
  | none => .error (.corrupted (.badWidth byte))

/-- The kind of the metadata. -/
def readKind (c : Cursor) : Result (UInt8 × Cursor) := do
  let (kind, c) ← need c.byte?
  if kind = jsonKind then .ok (kind, c) else .error (.unsupportedMetadata kind)

/-- The metadata, after its length. -/
def readMetadata (c : Cursor) : Result (Bytes × Cursor) := do
  let (length, c) ← need (c.word? 2)
  need (c.take? length)

/-- The fields of a preamble, one after another. -/
def read (c : Cursor) : Result (Preamble × Cursor) := do
  let (_, c) ← readMagic c
  let (width, c) ← readWidth c
  let (_, c) ← readKind c
  let (metadata, c) ← readMetadata c
  let preamble ← ofMetadata width metadata
  return (preamble, c)

/-- The preamble at the front of some bytes, and how many bytes it has. -/
def ofBytes (bytes : Bytes) : Result (Preamble × Nat) :=
  (read (Cursor.ofBytes bytes)).map fun (preamble, c) => (preamble, c.pos)

/-! ### Size of a complete preamble -/

theorem need_eq_ok_iff {α : Type} {o : Option α} {value : α} :
    need o = .ok value ↔ o = some value := by
  cases o <;> simp [need]

theorem reaches_of_readMagic {c c' : Cursor} {bytes : Bytes}
    (h : readMagic c = .ok (bytes, c')) : c.Reaches c' := by
  simp only [readMagic] at h
  split at h
  · exact Cursor.reaches_of_take? (need_eq_ok_iff.1 h)
  · cases h

theorem reaches_of_readWidth {c c' : Cursor} {width : Width}
    (h : readWidth c = .ok (width, c')) : c.Reaches c' := by
  obtain ⟨⟨byte, d⟩, hb, h⟩ := Result.bind_eq_ok_iff.1 h
  dsimp only at h
  split at h <;> cases h
  exact Cursor.reaches_of_byte? (need_eq_ok_iff.1 hb)

theorem reaches_of_readKind {c c' : Cursor} {kind : UInt8}
    (h : readKind c = .ok (kind, c')) : c.Reaches c' := by
  obtain ⟨⟨byte, d⟩, hb, h⟩ := Result.bind_eq_ok_iff.1 h
  dsimp only at h
  split at h <;> cases h
  exact Cursor.reaches_of_byte? (need_eq_ok_iff.1 hb)

theorem reaches_of_readMetadata {c c' : Cursor} {bytes : Bytes}
    (h : readMetadata c = .ok (bytes, c')) : c.Reaches c' := by
  obtain ⟨⟨length, d⟩, hl, h⟩ := Result.bind_eq_ok_iff.1 h
  exact (Cursor.reaches_of_word? (need_eq_ok_iff.1 hl)).trans
    (Cursor.reaches_of_take? (need_eq_ok_iff.1 h))

theorem reaches_of_read {c c' : Cursor} {p : Preamble} (h : read c = .ok (p, c')) :
    c.Reaches c' := by
  obtain ⟨⟨_, c₁⟩, h₁, h⟩ := Result.bind_eq_ok_iff.1 h
  obtain ⟨⟨width, c₂⟩, h₂, h⟩ := Result.bind_eq_ok_iff.1 h
  obtain ⟨⟨_, c₃⟩, h₃, h⟩ := Result.bind_eq_ok_iff.1 h
  obtain ⟨⟨metadata, c₄⟩, h₄, h⟩ := Result.bind_eq_ok_iff.1 h
  obtain ⟨preamble, -, h⟩ := Result.bind_eq_ok_iff.1 h
  cases h
  exact (reaches_of_readMagic h₁).trans <| (reaches_of_readWidth h₂).trans <|
    (reaches_of_readKind h₃).trans (reaches_of_readMetadata h₄)

/-- A complete preamble lies within the bytes. -/
theorem size_of_ofBytes {bytes : Bytes} {p : Preamble} {size : Nat}
    (h : ofBytes bytes = .ok (p, size)) : size ≤ bytes.length := by
  obtain ⟨⟨p', c⟩, hread, h⟩ := Result.map_eq_ok_iff.1 h
  cases h
  have := (reaches_of_read hread).2
  simp only [Cursor.ofBytes] at this
  omega

end Preamble

end LogCodec
