import LogCodec.Reader.Collect
import LogCodec.TextLog
import LogCodec.Writer.Basic

/-! # Commands

    There are three commands: a text log is encoded into a stream, and a stream
    is decoded or searched, which gives a text log again.

    - `Command.encodeText`, `Command.decodeStream` and `Command.searchStream` say
      what each of them writes, and how it ends, from its input.
    - `Failure` has the causes for which a command fails. -/

namespace LogCodec

/-! ### Failures -/

/-- Why a command failed. -/
inductive Failure where
  | openInput (path reason : String)
  | createOutput (path reason : String)
  | writePreamble (path : String) (error : Error)
  /-- The text to encode cannot be read to its end. -/
  | readText (path reason : String)
  | writeEvent (error : Error)
  | finish (path : String) (error : Error)
  | readPreamble (path : String) (error : Error)
  /-- The next event, which starts at this place in the stream, cannot be read. -/
  | readEvent (path : String) (offset : Nat) (error : Error)
  /-- The same in a search. -/
  | search (path : String) (offset : Nat) (error : Error)
deriving DecidableEq

namespace Failure

/-- The text of a failure: what was being done, and why it failed. -/
def message : Failure → String
  | openInput path reason => "open " ++ Quoted.string path ++ ": " ++ reason
  | createOutput path reason => "create " ++ Quoted.string path ++ ": " ++ reason
  | writePreamble path error =>
    "write preamble to " ++ Quoted.string path ++ ": " ++ error.fullMessage
  | readText path reason => "read " ++ Quoted.string path ++ ": " ++ reason
  | writeEvent error => error.fullMessage
  | finish path error => "finish " ++ Quoted.string path ++ ": " ++ error.fullMessage
  | readPreamble path error =>
    "read preamble of " ++ Quoted.string path ++ ": " ++ error.fullMessage
  | readEvent path offset error =>
    "read " ++ Quoted.string path ++ s!" at offset {offset}: " ++ error.message
  | search path offset error =>
    "search " ++ Quoted.string path ++ s!" at offset {offset}: " ++ error.message

end Failure

/-! ### What comes of a command -/

/-- What the summary of a command tells. -/
structure Tally where
  events : Nat
  /-- Bytes of the stream that were written or read. -/
  bytes : Nat
deriving DecidableEq

/-- What a command wrote, and how it ended. -/
structure Ending where
  written : Bytes
  result : Except Failure Tally

/-- How a stream is to be written. -/
structure StreamOptions where
  width : Width
  info : TimestampInfo
  /-- The reference timestamp, if it is not that of the first line. -/
  reference : Option Int64
deriving DecidableEq

/-- What the program is to do. -/
inductive Command where
  | encode (input output : String) (options : StreamOptions)
  | decode (input : String) (style : TextLog.TimestampStyle)
  | search (input : String) (queries : List Query) (interval : Interval)
      (style : TextLog.TimestampStyle)
deriving DecidableEq

namespace Command

/-- The name of a command. -/
def name : Command → String
  | encode .. => "encode"
  | decode .. => "decode"
  | search .. => "search"

/-! ### Encoding -/

/-- Ends a stream. -/
def finishStream (output : String) (writer : Writer) : Ending :=
  match writer.finish with
  | (.error error, sink) => ⟨sink.bytes, .error (.finish output error)⟩
  | (.ok (), sink) => ⟨sink.bytes, .ok ⟨writer.events, writer.bytes + 1⟩⟩

/-- Encodes a text log.  What was written before a failure stays written. -/
def encodeText (input output : String) (options : StreamOptions) (text : Contents) : Ending :=
  let lines := TextLog.linesOf text
  let reference := options.reference.getD (TextLog.firstTimestamp lines)
  match Writer.create Sink.empty options.width options.info reference with
  | .error (error, sink) => ⟨sink.bytes, .error (.writePreamble output error)⟩
  | .ok writer =>
    match writer.writeEvents (TextLog.events lines) with
    | (.error error, writer) => ⟨writer.sink.bytes, .error (.writeEvent error)⟩
    | (.ok (), writer) =>
      match text.failure with
      | some reason => ⟨writer.sink.bytes, .error (.readText input reason)⟩
      | none => finishStream output writer

/-! ### Decoding and searching -/

/-- How reading ended.  The end of the stream is the only good end. -/
def conclude (failure : Nat → Error → Failure) (error : Error) (reader : Reader) :
    Except Failure Tally :=
  match error with
  | .endOfStream => .ok ⟨reader.events, reader.window.bytesRead⟩
  | error => .error (failure reader.window.streamOffset error)

/-- Decodes a stream.  The events before a failure are written. -/
def decodeStream (input : String) (style : TextLog.TimestampStyle) (stream : Source) : Ending :=
  match Reader.open stream Window.defaultCapacity with
  | .error error => ⟨[], .error (.readPreamble input error)⟩
  | .ok reader =>
    let found := reader.allEvents
    ⟨TextLog.ofEvents style found.items, conclude (.readEvent input) found.error found.reader⟩

/-- Writes what a search finds in a stream.  The matches before a failure are written. -/
def writeMatches (search : Reader → Reader.Collected Match) (input : String)
    (style : TextLog.TimestampStyle) (stream : Source) : Ending :=
  match Reader.open stream Window.defaultCapacity with
  | .error error => ⟨[], .error (.readPreamble input error)⟩
  | .ok reader =>
    let found := search reader
    ⟨TextLog.ofEvents style (found.items.map Match.event),
      conclude (.search input) found.error found.reader⟩

/-- Searches a stream. -/
def searchStream (input : String) (queries : List Query) (interval : Interval)
    (style : TextLog.TimestampStyle) (stream : Source) : Ending :=
  writeMatches (·.allMatches interval queries) input style stream

end Command

end LogCodec
