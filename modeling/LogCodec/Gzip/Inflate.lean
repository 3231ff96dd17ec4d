import LogCodec.Gzip.Burst
import LogCodec.Gzip.Huffman

/-! # Inflating

    Compressed data is a sequence of blocks.  A block holds bytes as they are,
    or symbols: bytes, copies of bytes that were written before, and the end of
    the block.  The codes of the symbols are fixed or given in the block.

    An inflater takes its input in pieces and writes its output window by
    window.  It halts when a window is full and there is more to write, when the
    input that it has is used up, at invalid data, and at the end.  What it
    writes between two halts is a burst.

    - `Inflater.run`: goes on until there is a reason to halt.
    - `inflate`: all bursts of some compressed data. -/

namespace LogCodec.Gzip

/-! ### Lengths and distances -/

/-- The least length and the count of extra bits of each length symbol. -/
def lengthTable : Array (Nat × Nat) := #[
  (3, 0), (4, 0), (5, 0), (6, 0), (7, 0), (8, 0), (9, 0), (10, 0),
  (11, 1), (13, 1), (15, 1), (17, 1), (19, 2), (23, 2), (27, 2), (31, 2),
  (35, 3), (43, 3), (51, 3), (59, 3), (67, 4), (83, 4), (99, 4), (115, 4),
  (131, 5), (163, 5), (195, 5), (227, 5), (258, 0)]

/-- The least distance and the count of extra bits of each distance symbol. -/
def distanceTable : Array (Nat × Nat) := #[
  (1, 0), (2, 0), (3, 0), (4, 0), (5, 1), (7, 1), (9, 2), (13, 2),
  (17, 3), (25, 3), (33, 4), (49, 4), (65, 5), (97, 5), (129, 6), (193, 6),
  (257, 7), (385, 7), (513, 8), (769, 8), (1025, 9), (1537, 9), (2049, 10), (3073, 10),
  (4097, 11), (6145, 11), (8193, 12), (12289, 12), (16385, 13), (24577, 13)]

/-- The number that an entry of a table and its extra bits give. -/
def extended (table : Array (Nat × Nat)) (symbol : Nat) (b : Bits) : Except Stop (Nat × Bits) :=
  match table[symbol]? with
  | none => .error .corrupt
  | some (least, extra) => (b.number extra).map fun (more, b) => (least + more, b)

/-- Copies `length` bytes from `distance` bytes before the end.  What lies before
    the first byte reads as zero. -/
def copyBack (distance : Nat) : (length : Nat) → Array UInt8 → Array UInt8
  | 0, out => out
  | length + 1, out =>
    let b := if distance ≤ out.size then out.getD (out.size - distance) 0 else 0
    copyBack distance length (out.push b)

/-! ### Codes -/

/-- The codes of a block: of bytes and lengths, and of distances. -/
structure Codes where
  literals : CodeTree
  distances : CodeTree

/-- The codes of a block that does not give its own. -/
def fixedCodes : Codes where
  literals := CodeTree.ofLengths (List.replicate 144 8 ++ List.replicate 112 9
    ++ List.replicate 24 7 ++ List.replicate 8 8)
  distances := CodeTree.ofLengths (List.replicate 32 5)

/-- The order in which the lengths of the code of lengths are stored. -/
def lengthOrder : List Nat :=
  [16, 17, 18, 0, 8, 7, 9, 6, 10, 5, 11, 4, 12, 3, 13, 2, 14, 1, 15]

/-- `count` lengths of the code of lengths, three bits each. -/
def readOrder (b : Bits) : (count : Nat) → Except Stop (List Nat × Bits)
  | 0 => .ok ([], b)
  | count + 1 => do
    let (length, b) ← b.number 3
    let (lengths, b) ← readOrder b count
    return (length :: lengths, b)

/-- Lengths until there are `total`.  `lengths` has those read, the last one
    first; `fuel` is at least the number that is missing. -/
def readLengths (tree : CodeTree) (total : Nat) :
    (fuel : Nat) → List Nat → Bits → Except Stop (List Nat × Bits)
  | 0, lengths, b => if lengths.length = total then .ok (lengths.reverse, b) else .error .corrupt
  | fuel + 1, lengths, b =>
    if lengths.length = total then .ok (lengths.reverse, b)
    else if total < lengths.length then .error .corrupt
    else do
      let (symbol, b) ← tree.read b
      if symbol < 16 then readLengths tree total fuel (symbol :: lengths) b
      else
        let (length, extra, least) ←
          -- 16 repeats the length before it, 17 and 18 repeat zero
          if symbol = 16 then
            match lengths with
            | previous :: _ => pure (previous, 2, 3)
            | [] => throw .corrupt
          else if symbol = 17 then pure (0, 3, 3)
          else pure (0, 7, 11)
        let (more, b) ← b.number extra
        readLengths tree total fuel (List.replicate (least + more) length ++ lengths) b

/-- The codes that a block gives.  Their numbers are checked before any length is
    read. -/
def readCodes (b : Bits) : Except Stop (Codes × Bits) := do
  let (literalCount, b) ← b.number 5
  let (distanceCount, b) ← b.number 5
  let (orderCount, b) ← b.number 4
  let literalCount := literalCount + 257
  let distanceCount := distanceCount + 1
  if 286 < literalCount ∨ 30 < distanceCount then throw .corrupt
  let (order, b) ← readOrder b (orderCount + 4)
  let stored := lengthOrder.zip order
  let orderLengths := (List.range 19).map fun symbol => (stored.lookup symbol).getD 0
  if !CodeTree.isComplete orderLengths then throw .corrupt
  let total := literalCount + distanceCount
  let (lengths, b) ← readLengths (CodeTree.ofLengths orderLengths) total total [] b
  let literals := lengths.take literalCount
  let distances := lengths.drop literalCount
  if !(CodeTree.isUsable literals && CodeTree.isUsable distances) then throw .corrupt
  return (⟨CodeTree.ofLengths literals, CodeTree.ofLengths distances⟩, b)

/-! ### Symbols -/

/-- A symbol of a block, with all that belongs to it. -/
inductive Symbol where
  | literal (b : UInt8)
  | copy (length distance : Nat)
  | endOfBlock

/-- Reads a symbol. -/
def readSymbol (codes : Codes) (b : Bits) : Except Stop (Symbol × Bits) := do
  let (symbol, b) ← codes.literals.read b
  if symbol < 256 then return (.literal (UInt8.ofNat symbol), b)
  else if symbol = 256 then return (.endOfBlock, b)
  else
    let (length, b) ← extended lengthTable (symbol - 257) b
    let (symbol, b) ← codes.distances.read b
    let (distance, b) ← extended distanceTable symbol b
    return (.copy length distance, b)

/-! ### Inflaters -/

/-- What an inflater is in the middle of. -/
inductive Phase where
  /-- Nothing: a block starts, or the last one has ended. -/
  | between
  /-- Bytes that are stored as they are, with the number of those to come. -/
  | stored (left : Nat)
  /-- The symbols of a block. -/
  | symbols (codes : Codes)
  /-- A byte of a symbol that was not written. -/
  | literal (b : UInt8) (codes : Codes)
  /-- A copy, with the number of bytes that were not written. -/
  | copy (length distance : Nat) (codes : Codes)

/-- The state of inflating. -/
structure Inflater where
  /-- Input that was taken and not used. -/
  bits : Bits
  phase : Phase
  /-- Is the block the last one? -/
  last : Bool
  /-- All that was written. -/
  out : Array UInt8

/-- Why an inflater halts. -/
inductive Halt where
  /-- There is something to write and no room for it. -/
  | full
  /-- All blocks were read. -/
  | ended
  | stopped (stop : Stop)

namespace Inflater

/-- Reads how a block starts: whether it is the last one, and what it holds. -/
def readBlock (b : Bits) : Except Stop (Bool × Phase × Bits) := do
  let (last, b) ← b.bit
  let (kind, b) ← b.number 2
  match kind with
  | 0 =>
    let (size, b) ← b.align.number 16
    let (complement, b) ← b.number 16
    if size + complement ≠ 65535 then throw .corrupt
    return (last, .stored size, b)
  | 1 => return (last, .symbols fixedCodes, b)
  | 2 =>
    let (codes, b) ← readCodes b
    return (last, .symbols codes, b)
  | _ => throw .corrupt

/-- One step, when the output may have at most `limit` bytes.  Input that ends in
    the middle of a symbol or of the start of a block is kept as it is. -/
def step (limit : Nat) (s : Inflater) : Inflater × Option Halt :=
  let room := limit - s.out.size
  match s.phase with
  | .between =>
    if s.last then (s, some .ended)
    else
      match readBlock s.bits with
      | .error stop => (s, some (.stopped stop))
      | .ok (last, phase, bits) => ({ s with last, phase, bits }, none)
  | .stored left =>
    if left = 0 then ({ s with phase := .between }, none)
    else if room = 0 then (s, some .full)
    else
      -- stored bytes start at a whole byte
      match s.bits.rest.take (min left room) with
      | [] => (s, some (.stopped .short))
      | piece =>
        let size := piece.length
        ({ s with
          bits := { s.bits with rest := s.bits.rest.drop size }
          phase := .stored (left - size)
          out := piece.foldl Array.push s.out }, none)
  | .symbols codes =>
    match readSymbol codes s.bits with
    | .error stop => (s, some (.stopped stop))
    | .ok (.literal b, bits) => ({ s with bits, phase := .literal b codes }, none)
    | .ok (.copy length distance, bits) =>
      ({ s with bits, phase := .copy length distance codes }, none)
    | .ok (.endOfBlock, bits) => ({ s with bits, phase := .between }, none)
  | .literal b codes =>
    if room = 0 then (s, some .full)
    else ({ s with phase := .symbols codes, out := s.out.push b }, none)
  | .copy length distance codes =>
    if length = 0 then ({ s with phase := .symbols codes }, none)
    else if room = 0 then (s, some .full)
    else
      let size := min length room
      ({ s with
        phase := .copy (length - size) distance codes
        out := copyBack distance size s.out }, none)

/-- Steps until there is a reason to halt, at most `fuel` times. -/
def runFor (limit : Nat) : (fuel : Nat) → Inflater → Inflater × Halt
  | 0, s => (s, .stopped .short)
  | fuel + 1, s =>
    match s.step limit with
    | (s, none) => runFor limit fuel s
    | (s, some halt) => (s, halt)

/-- Steps until there is a reason to halt.  Of three steps one uses bits, so that
    the bits that are there bound their number. -/
def run (limit : Nat) (s : Inflater) : Inflater × Halt := s.runFor limit (3 * s.bits.size + 4)

end Inflater

/-! ### Bursts -/

/-- Bytes of input that are taken at once. -/
def pieceSize : Nat := 32 * 1024

/-- Bytes of output between two ends of windows. -/
def windowSize : Nat := 32 * 1024

/-- Inflating in the middle of a file. -/
structure Inflation where
  inflater : Inflater
  /-- Input that was not taken. -/
  rest : Bytes
  /-- How many bytes of the file were taken. -/
  taken : Nat
  /-- Was the last piece used up? -/
  drained : Bool

namespace Inflation

/-- Takes the next piece once the last one was used up, if there is one.  Says
    also whether there was none. -/
def refill (f : Inflation) : Inflation × Bool :=
  if !f.drained then (f, false)
  else if f.rest = [] then (f, true)
  else
    let piece := f.rest.take pieceSize
    let bits := f.inflater.bits
    ({ f with
      inflater := { f.inflater with bits := { bits with rest := bits.rest ++ piece } }
      rest := f.rest.drop pieceSize
      taken := f.taken + piece.length }, false)

/-- Runs to the end of the window.  When there was no input, the input is not used
    up either. -/
def advance (f : Inflation) (dry : Bool) : Inflation × Burst × Halt :=
  let size := f.inflater.out.size
  let (inflater, halt) := f.inflater.run ((size / windowSize + 1) * windowSize)
  let drained :=
    match halt with
    | .stopped _ => true
    | _ => inflater.bits.rest.isEmpty
  let ending : Burst.Ending :=
    match halt with
    | .ended => .last
    | .stopped .corrupt => .spoiled
    | .stopped .short => if dry then .last else .pause
    | .full => if drained && !dry then .pause else .more
  ({ f with inflater, drained }, ⟨inflater.out.size - size, ending, f.taken⟩, halt)

end Inflation

/-- What comes of inflating. -/
structure Inflated where
  bursts : List Burst
  /-- The bytes of the bursts. -/
  data : Bytes
  /-- The bytes after the compressed data, or why there is no end of it. -/
  result : Except Stop Bytes

/-- Inflates to the end, after these bursts, the last one first. -/
def inflateFrom : (fuel : Nat) → List Burst → Inflation → Inflated
  | 0, bursts, f => ⟨bursts.reverse, f.inflater.out.toList, .error .short⟩
  | fuel + 1, bursts, f =>
    let (f, dry) := f.refill
    let size := f.inflater.out.size
    let (f, burst, halt) := f.advance dry
    let bursts := burst :: bursts
    match burst.ending, halt with
    | .last, .ended =>
      ⟨bursts.reverse, f.inflater.out.toList, .ok (f.inflater.bits.rest ++ f.rest)⟩
    | .last, _ => ⟨bursts.reverse, f.inflater.out.toList, .error .short⟩
    | .spoiled, _ => ⟨bursts.reverse, (f.inflater.out.extract 0 size).toList, .error .corrupt⟩
    | _, _ => inflateFrom fuel bursts f

/-- Inflates the data that starts at some place of a file.  Each burst but the last
    two uses up a piece or fills a window, which takes more than a byte. -/
def inflate (start : Nat) (bytes : Bytes) : Inflated :=
  -- the rest of the piece in which the header ends
  let taken := (start + pieceSize - 1) / pieceSize * pieceSize - start
  let front := bytes.take taken
  inflateFrom (bytes.length + 4) [] {
    inflater := ⟨Bits.ofBytes front, .between, false, #[]⟩
    rest := bytes.drop taken
    taken := start + front.length
    drained := front.isEmpty }

end LogCodec.Gzip
