import LogCodec.Bytes

/-! # Contents

    What comes of reading an input to its end: bytes, and then either no more
    or a failure. -/

namespace LogCodec

/-- What an input gives. -/
structure Contents where
  data : Bytes
  /-- How reading fails once all bytes were given, if it does. -/
  failure : Option String
deriving DecidableEq

namespace Contents

/-- Bytes that are read without failure. -/
def ofBytes (data : Bytes) : Contents := ⟨data, none⟩

end Contents

end LogCodec
