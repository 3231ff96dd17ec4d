import LogCodec.Bytes

/-! # Log events -/

namespace LogCodec

/-- A log message and when it was logged. -/
structure Event where
  /-- The text, not necessarily UTF-8. -/
  message : Bytes
  /-- Milliseconds since the epoch. -/
  timestamp : Int64
deriving DecidableEq

/-- What holds for all timestamps of a stream.  A field that is not known is
    empty. -/
structure TimestampInfo where
  /-- How a timestamp is written, such as `yyyy-MM-dd HH:mm:ss,SSS`. -/
  pattern : String
  /-- The language of the pattern. -/
  patternSyntax : String
  /-- The name of the time zone. -/
  timeZone : String
deriving DecidableEq, Inhabited

end LogCodec
