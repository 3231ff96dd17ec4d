import LogCodec.Contents
import LogCodec.Stream.Event
import LogCodec.Text.Decimal
import LogCodec.Text.Rfc3339
import LogCodec.Text.Utf8

/-! # Text logs

    A text log has one event a line: the timestamp in milliseconds since the
    epoch, a space, and the message.  A line that does not start with a
    timestamp is a message as a whole and has the timestamp of the line before
    it.

    - `lines`: the lines of a text.
    - `events`: the events of these lines.
    - `ofEvents`: the text of events, with the timestamps as numbers or as
      dates. -/

namespace LogCodec.TextLog

def newline : UInt8 := 0x0A

def carriageReturn : UInt8 := 0x0D

def space : UInt8 := 0x20

/-! ### Lines -/

/-- The lines of a text, without the newlines that end them.  What follows the
    last newline is a line too, unless it is empty. -/
def lines (text : Bytes) : List Bytes :=
  match _h : text.dropWhile (· ≠ newline) with
  | [] => if text = [] then [] else [text]
  | _ :: rest => text.takeWhile (· ≠ newline) :: lines rest
termination_by text.length
decreasing_by
  -- what follows a newline is shorter
  have := (List.dropWhile_suffix (l := text) (· ≠ newline)).length_le
  rw [_h, List.length_cons] at this
  omega

/-- The text up to its last newline. -/
def throughLastNewline (text : Bytes) : Bytes := (text.reverse.dropWhile (· ≠ newline)).reverse

/-- The lines of a text that are complete, and what follows the last newline. -/
def splitLast (text : Bytes) : List Bytes × Bytes :=
  let complete := throughLastNewline text
  (lines complete, text.drop complete.length)

/-- The lines of an input.  When reading fails, the line in which it fails is
    lost. -/
def linesOf (input : Contents) : List Bytes :=
  match input.failure with
  | none => lines input.data
  | some _ => lines (throughLastNewline input.data)

/-- A line without the carriage return at its end. -/
def trimReturn (line : Bytes) : Bytes :=
  if line.getLast? = some carriageReturn then line.dropLast else line

/-! ### Reading events -/

/-- The timestamp before the first space of a line, and what follows that
    space. -/
def timestamp? (line : Bytes) : Option (Int64 × Bytes) :=
  match Decimal.readInt64 (line.takeWhile (· ≠ space)) with
  | .ok timestamp => some (timestamp, (line.dropWhile (· ≠ space)).drop 1)
  | .error _ => none

/-- The event of a line after an event at the time `prior`. -/
def eventOf (prior : Int64) (line : Bytes) : Event :=
  match timestamp? line with
  | some (timestamp, message) => ⟨message, timestamp⟩
  | none => ⟨line, prior⟩

/-- The events of lines after an event at the time `prior`. -/
def eventsAfter (prior : Int64) : List Bytes → List Event
  | [] => []
  | line :: rest =>
    let event := eventOf prior (trimReturn line)
    event :: eventsAfter event.timestamp rest

/-- The events of lines.  Before the first timestamp the time is zero. -/
def events (lines : List Bytes) : List Event := eventsAfter 0 lines

/-- The time of the first line as it stands in the text, zero if there is no
    line. -/
def firstTimestamp (lines : List Bytes) : Int64 :=
  match lines with
  | [] => 0
  | line :: _ => (eventOf 0 line).timestamp

/-! ### Writing events -/

/-- How timestamps are written. -/
inductive TimestampStyle where
  /-- Milliseconds since the epoch. -/
  | epoch
  /-- Date and time of day. -/
  | date
deriving DecidableEq

/-- The text of a timestamp.  One without a date is written as a number. -/
def timestampText (style : TimestampStyle) (timestamp : Int64) : Bytes :=
  let number := Decimal.ofInteger timestamp.toInt
  match style with
  | .epoch => number
  | .date =>
    match Rfc3339.text? timestamp.toInt with
    | some text => Utf8.ofString text
    | none => number

/-- The line of an event. -/
def line (style : TimestampStyle) (event : Event) : Bytes :=
  timestampText style event.timestamp ++ space :: event.message ++ [newline]

/-- The lines of events. -/
def ofEvents (style : TimestampStyle) (events : List Event) : Bytes := events.flatMap (line style)

end LogCodec.TextLog
