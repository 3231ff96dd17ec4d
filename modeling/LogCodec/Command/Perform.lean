import LogCodec.Command.Invocation
import LogCodec.Command.Overwrite
import LogCodec.Files.Basic
import LogCodec.Gzip.Member

/-! # Performing commands

    A command reads its input from a file and writes to a file or to the
    standard output.  The path `-` means the standard input or output.  A file
    whose name ends in `.gz` is compressed.  How its bytes are chosen is left to
    a compressor, and what the version is to the program.

    The output is created only after the input was opened, so that a command
    without an input leaves no file behind.

    - `Invocation.perform`: does what is asked for, by operations on files.
    - `Report`: what a run of the program shows. -/

namespace LogCodec

/-- The path of the standard input and output. -/
def standardPath : String := "-"

/-! ### Reports -/

/-- What a run of the program shows. -/
structure Report where
  /-- Zero if all went well. -/
  code : Nat
  output : Bytes
  /-- What is told beside the output. -/
  notes : String
deriving DecidableEq

namespace Report

/-- A text that was asked for. -/
def ofText (text : String) : Report := ⟨0, Utf8.ofString text, ""⟩

/-- Arguments that were refused. -/
def ofUsageFault (fault : UsageFault) : Report := ⟨2, [], "error: " ++ fault.message ++ "\n"⟩

/-- A command that wrote some bytes to the standard output and ended in some
    way. -/
def ofEnding (command : Command) (summary : Bool) (ending : Ending) : Report :=
  match ending.result with
  | .error failure => ⟨1, ending.written, "ERROR: " ++ failure.message ++ "\n"⟩
  | .ok tally =>
    ⟨0, ending.written,
      if summary then
        command.name ++ s!": log events {tally.events}, IR bytes {tally.bytes}\n"
      else ""⟩

end Report

/-! ### Help -/

/-- The text of the help. -/
def helpText : String :=
  "Usage: lis [-s] encode [--four-byte] [-r TIMESTAMP] INPUT OUTPUT\n" ++
  "       lis [-s] decode [-e] INPUT\n" ++
  "       lis [-s] search [-e] [-i] [-a TIMESTAMP] [-b TIMESTAMP] INPUT QUERY...\n\n" ++
  "Text log lines are \"<epoch milliseconds> <message>\".\n" ++
  "A line without a leading integer has the timestamp of the prior line.\n" ++
  "A PATH ending \".gz\" is read or written with gzip compression.\n" ++
  "A PATH of \"-\" is STDIN or STDOUT.\n"

/-! ### Commands on files -/

section

variable {m : Type → Type} [Monad m] (files : Files m) (compress : Bytes → Bytes)

/-- The source that a file with this path gives. -/
def sourceOf (path : String) (file : Contents) : Source :=
  if Path.isGzip path then Gzip.source file else Source.ofContents file

/-- Opens the input of a command. -/
def openInput (path : String) : m (Except Failure Contents) := do
  if path = standardPath then
    return .ok (← files.standardInput)
  else
    match ← files.read path with
    | .error fault => return .error (.openInput path fault.message)
    | .ok file => return .ok file

/-- Encodes a file over itself.  Of a compressed file that part is encoded which was
    taken when the first line was known; the output is stored only at the end. -/
def Command.encodeSame (input output : String) (options : StreamOptions) (file : Contents) :
    Ending :=
  if Path.isGzip input then
    let source := (Gzip.source file).throughNewline
    let taken := file.data.take (Gzip.takenAfter file.data source.offered)
    encodeText input output options ((Gzip.source { file with data := taken }).drain blockSize)
  else encodeOver input output options file.data

/-- Writes the output of a command, when it can be created.  What is left in the
    ending was written to the standard output. -/
def writeOutput (path : String) (ending : Ending) : m Ending := do
  if path = standardPath then
    return ending
  else
    match ← files.create path with
    | .error fault => return ⟨[], .error (.createOutput path fault.message)⟩
    | .ok () =>
      files.write path (if Path.isGzip path then compress ending.written else ending.written)
      return { ending with written := [] }

/-- Performs a command. -/
def Command.perform (command : Command) : m Ending := do
  match command with
  | .encode input output options =>
    match ← openInput files input with
    | .error failure => return ⟨[], .error failure⟩
    | .ok file =>
      let same ← if input = standardPath ∨ output = standardPath then pure false
        else files.isSame input output
      writeOutput files compress output <|
        if same then encodeSame input output options file
        else encodeText input output options ((sourceOf input file).drain blockSize)
  | .decode input style =>
    match ← openInput files input with
    | .error failure => return ⟨[], .error failure⟩
    | .ok file => return decodeStream input style (sourceOf input file)
  | .search input queries interval style =>
    match ← openInput files input with
    | .error failure => return ⟨[], .error failure⟩
    | .ok file => return searchStream input queries interval style (sourceOf input file)

/-- Does what the program is asked for.  `version` is the text of its version. -/
def Invocation.perform (invocation : Invocation) (version : String) : m Report := do
  match invocation with
  | .run command summary =>
    return Report.ofEnding command summary (← command.perform files compress)
  | .showHelp => return .ofText helpText
  | .showVersion => return .ofText version
  | .refused fault => return .ofUsageFault fault

end

end LogCodec
