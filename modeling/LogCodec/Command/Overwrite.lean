import LogCodec.Command.Basic
import LogCodec.Reader.Buffer

/-! # Encoding over the input

    A text log may be encoded into the file that it is read from.  The file is
    emptied when its first line is known, and from then on a read finds what was
    stored of the stream so far: of what is written, up to a block is kept back.
    What was read before stays, so that a text of one block is encoded as usual.

    - `Source.throughNewline`: the reads up to the first line.
    - `Command.encodeOver`: what is written, and how it ends. -/

namespace LogCodec

/-- The source after reads of blocks, of which the last one gives the first
    newline or nothing. -/
def Source.throughNewline (s : Source) : Source :=
  match _h : s.read blockSize with
  | (.failed _, _, after) => after
  | (.gave [], _, after) => after
  | (.gave (b :: rest), _, after) =>
    if TextLog.newline ∈ b :: rest then after else throughNewline after
termination_by s.data.length
decreasing_by
  have := congrArg List.length (data_of_read_gave _h)
  simp only [List.length_append, List.length_cons] at this
  omega

namespace Command

/-! ### Storing -/

/-- How many bytes are stored and how many are kept back after one more piece is
    written.  A piece that does not fit is preceded by what was kept back, and one
    of a block or more is not kept back at all. -/
def store (piece : Nat) : Nat × Nat → Nat × Nat
  | (stored, kept) =>
    let (stored, kept) := if blockSize < kept + piece then (stored + kept, 0) else (stored, kept)
    if blockSize ≤ piece then (stored + piece, kept) else (stored, kept + piece)

/-- What is stored of the bytes that a sink accepted. -/
def storedBytes (sink : Sink) : Bytes :=
  sink.bytes.take ((sink.pieces.map List.length).foldr store (0, 0)).1

/-! ### Reading what was written -/

/-- A stream that is written over the text. -/
structure Overwriting where
  writer : Writer
  /-- The time of the last event. -/
  prior : Int64
  /-- How many bytes of the file were read. -/
  position : Nat
  /-- The start of a line of which no newline was read. -/
  line : Bytes

namespace Overwriting

/-- The next block of the file. -/
def block (o : Overwriting) : Bytes :=
  ((storedBytes o.writer.sink).drop o.position).take blockSize

/-- Writes the events of lines. -/
def write (o : Overwriting) (lines : List Bytes) : Result Unit × Overwriting :=
  let events := TextLog.eventsAfter o.prior lines
  let (result, writer) := o.writer.writeEvents events
  (result, { o with writer, prior := (events.getLast?.map Event.timestamp).getD o.prior })

/-- Writes and reads in turn until a read gives nothing at the start of a line.
    Elsewhere a read that gives nothing ends the line. -/
def runFor (output : String) : (fuel : Nat) → List Bytes → Overwriting → Ending
  | 0, _, o => finishStream output o.writer
  | fuel + 1, lines, o =>
    match o.write lines with
    | (.error error, o) => ⟨o.writer.sink.bytes, .error (.writeEvent error)⟩
    | (.ok (), o) =>
      match o.block, o.line with
      | [], [] => finishStream output o.writer
      | [], line => runFor output fuel [line] { o with line := [] }
      | block, line =>
        let (lines, line) := TextLog.splitLast (line ++ block)
        runFor output fuel lines { o with line, position := o.position + block.length }

end Overwriting

/-- The number of blocks that are read at most.  A stream may grow faster than it
    is read. -/
def overwriteMax : Nat := 0x100000000

/-- Encodes a text log over itself. -/
def encodeOver (input output : String) (options : StreamOptions) (text : Bytes) : Ending :=
  if text = [] then encodeText input output options (.ofBytes text)
  else
    let source := (Source.ofContents (.ofBytes text)).throughNewline
    let position := text.length - source.data.length
    let (lines, line) :=
      if TextLog.newline ∈ text then TextLog.splitLast (text.take position) else ([text], [])
    let reference := options.reference.getD (TextLog.firstTimestamp lines)
    match Writer.create Sink.empty options.width options.info reference with
    | .error (error, sink) => ⟨sink.bytes, .error (.writePreamble output error)⟩
    | .ok writer =>
      Overwriting.runFor output overwriteMax lines ⟨writer, 0, position, line⟩

end Command

end LogCodec
