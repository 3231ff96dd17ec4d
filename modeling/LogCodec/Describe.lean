import LogCodec.Reader.Basic
import LogCodec.Stream.Serializer

/-! # Descriptions

    Texts that show the state of a value, for diagnosis: the name of its type
    and its fields, in order.  The description of a log type shows each ASCII
    control character by its picture, so that placeholders can be seen and
    nothing moves the cursor. -/

namespace LogCodec

namespace Visible

/-- The picture of a control character; every other character is kept. -/
def char (c : Char) : Char :=
  if c.toNat < 0x20 then Char.ofNat (0x2400 + c.toNat)
  else if c.toNat = 0x7F then '\u2421'
  else c

/-- The text of any bytes with its control characters made visible. -/
def text (bytes : Bytes) : List Char := (Utf8.lossy bytes).map char

end Visible

/-- The description of a value with fields. -/
def describeFields (name : String) (fields : List (String × String)) : String :=
  name ++ " \x7b "
    ++ ", ".intercalate (fields.map fun (field, value) => field ++ ": " ++ value) ++ " \x7d"

/-- The description of a truth value. -/
def describeBool (b : Bool) : String := if b then "true" else "false"

def Width.describe : Width → String
  | fourByte => "FourByte"
  | eightByte => "EightByte"

/-- The log type is shown with visible controls, the dictionary as it is. -/
def Encoded.describe {w : Width} (e : Encoded w) : String :=
  describeFields "EncodedMessage" [
    ("width", w.describe),
    ("logtype", Quoted.text (Visible.text e.logType)),
    ("vars", bracketed (e.inline.map fun v => toString v.toInt)),
    ("dict_vars", Quoted.text (Utf8.lossy e.dictionary)),
    ("dict_var_end_offsets", bracketed (e.ends.map fun v => toString v.toInt))]

def Event.describe (e : Event) : String :=
  describeFields "LogEvent" [
    ("timestamp", toString e.timestamp.toInt),
    ("message", Quoted.message e.message)]

def TimestampInfo.describe (i : TimestampInfo) : String :=
  describeFields "TimestampInfo" [
    ("pattern", Quoted.string i.pattern),
    ("pattern_syntax", Quoted.string i.patternSyntax),
    ("time_zone_id", Quoted.string i.timeZone)]

def Serializer.describe (s : Serializer) : String :=
  describeFields "Serializer" [
    ("width", s.width.describe),
    ("timestamp_info", s.info.describe),
    ("running_timestamp", toString s.running.toInt),
    ("closed", describeBool s.closed)]

def Deserializer.describe (d : Deserializer) : String :=
  describeFields "Deserializer" [
    ("width", d.width.describe),
    ("timestamp_info", d.info.describe),
    ("running_timestamp", toString d.running.toInt),
    ("eoir", describeBool d.ended),
    ("closed", describeBool d.closed)]

def Reader.describe (r : Reader) : String :=
  describeFields "StreamReader" [
    ("deserializer", r.deserializer.describe),
    ("start", toString r.window.start),
    ("end", toString r.window.stop),
    ("capacity", toString r.window.capacity),
    ("stream_offset", toString r.window.streamOffset),
    ("count_events", toString r.events)]

end LogCodec
