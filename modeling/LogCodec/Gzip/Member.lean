import LogCodec.Gzip.Crc32
import LogCodec.Gzip.Inflate
import LogCodec.Word

/-! # Gzip files

    A gzip file starts with a header, which may hold extra data, a file name, a
    comment and a checksum of itself.  After the compressed data follow the
    checksum and the size of the data.

    - `Gzip.source` gives the data of the first member of a file.
    - `Gzip.pack` writes a file whose data is stored as it is. -/

namespace LogCodec.Gzip

/-! ### Failures -/

def badHeader : String := "invalid gzip header"

def fieldTooLong : String := "gzip header field too long"

def endedEarly : String := "unexpected end of file"

def badChecksum : String := "corrupt gzip stream does not have a matching checksum"

def incompleteData : String := "incomplete deflate stream"

/-! ### Numbers with the least significant byte first -/

/-- The value of `n` bytes at the front, and the rest. -/
def littleEndian? (n : Nat) (bytes : Bytes) : Option (Nat × Bytes) :=
  (bytes.splitExact? n).map fun (front, rest) => (Word.ofBytes front.reverse, rest)

/-- The `n` bytes of a number. -/
def littleEndian (n value : Nat) : Bytes := (Word.toBytes n value).reverse

/-! ### Headers -/

/-- Fails because the file has ended. -/
def need {α : Type} : Option α → Except String α
  | some a => .ok a
  | none => .error endedEarly

/-- The longest name or comment. -/
def textMax : Nat := 65535

/-- What follows a text that ends with a zero byte. -/
def skipText (bytes : Bytes) : Except String Bytes :=
  match bytes.dropWhile (· ≠ 0) with
  | [] => .error (if textMax < bytes.length then fieldTooLong else endedEarly)
  | _ :: rest =>
    if textMax < bytes.length - rest.length - 1 then .error fieldTooLong else .ok rest

/-- What follows the header of a file. -/
def skipHeader (bytes : Bytes) : Except String Bytes := do
  let (fixed, rest) ← need (bytes.splitExact? 10)
  let flags := fixed.getD 3 0
  let flag := fun (n : Nat) => flags.toNat.testBit n
  if fixed.take 3 ≠ [0x1F, 0x8B, 8] ∨ flag 5 ∨ flag 6 ∨ flag 7 then throw badHeader
  let mut rest := rest
  if flag 2 then
    let (size, after) ← need (littleEndian? 2 rest)
    let (_, after) ← need (after.splitExact? size)
    rest := after
  if flag 3 then rest ← skipText rest
  if flag 4 then rest ← skipText rest
  if flag 1 then
    let header := bytes.take (bytes.length - rest.length)
    let (sum, after) ← need (littleEndian? 2 rest)
    if sum ≠ (crc32 header).toNat % 65536 then throw badChecksum
    rest := after
  return rest

/-! ### Files -/

/-- Compares data with the checksum and the size after it. -/
def checkTrailer (data after : Bytes) : Option String :=
  match (do
    let (sum, after) ← littleEndian? 4 after
    let (size, _) ← littleEndian? 4 after
    return (sum, size)) with
  | none => some endedEarly
  | some (sum, size) =>
    if sum = (crc32 data).toNat ∧ size = data.length % 0x100000000 then none else some badChecksum

/-- The data of the first member of a file, and how it is given. -/
structure Member where
  data : Bytes
  /-- How reading starts. -/
  outflow : Outflow
  /-- How reading fails once all data was given, if it does. -/
  failure : Option String

/-- The first member of a file. -/
def firstMember (bytes : Bytes) : Member :=
  match skipHeader bytes with
  | .error reason => ⟨[], ⟨0, [], bytes.length⟩, some reason⟩
  | .ok rest =>
    let inflated := inflate (bytes.length - rest.length) rest
    { data := inflated.data
      outflow := ⟨0, inflated.bursts, 0⟩
      failure :=
        match inflated.result with
        | .ok after => checkTrailer inflated.data after
        | .error .short => some incompleteData
        | .error .corrupt => some badData }

/-- The data of a file.  A file that cannot be read to its end fails so where it
    would end early. -/
def source (file : Contents) : Source :=
  let member := firstMember file.data
  { data := member.data
    plan := Source.planFrom Outflow.step member.outflow
    offered := []
    ending :=
      match file.failure, member.failure with
      | some reason, some failure =>
        if failure = endedEarly ∨ failure = incompleteData then some reason else some failure
      | _, failure => failure }

/-- How many bytes of a file were taken when these rooms were offered for its data,
    the latest one first. -/
def takenAfter (bytes : Bytes) (offered : List Nat) : Nat :=
  (Source.stateAfter Outflow.step (firstMember bytes).outflow offered).taken

/-- The most bytes of a block that stores them as they are. -/
def blockMax : Nat := 65535

/-- Blocks that store bytes as they are.  `fuel` is at least the number of blocks
    but the last. -/
def storedBlocks : (fuel : Nat) → Bytes → Bytes
  | fuel + 1, bytes =>
    if blockMax < bytes.length then
      0 :: littleEndian 2 blockMax ++ littleEndian 2 0 ++ bytes.take blockMax
        ++ storedBlocks fuel (bytes.drop blockMax)
    else lastBlock bytes
  | 0, bytes => lastBlock bytes
where
  /-- The last block. -/
  lastBlock (bytes : Bytes) : Bytes :=
    1 :: littleEndian 2 bytes.length ++ littleEndian 2 (blockMax - bytes.length) ++ bytes

/-- A file with this data. -/
def pack (data : Bytes) : Bytes :=
  [0x1F, 0x8B, 8, 0, 0, 0, 0, 0, 0, 0xFF] ++ storedBlocks data.length data
    ++ littleEndian 4 (crc32 data).toNat ++ littleEndian 4 data.length

end LogCodec.Gzip
