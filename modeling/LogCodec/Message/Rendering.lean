import LogCodec.Message.Encoded

/-! # Rendering encoded messages

    Decoding reads the log type from the left and writes each item: a literal
    as it is, a placeholder as the text of the next variable of its kind.  It
    stops at the first item that cannot be written, with what was written so
    far, and all variables must have been used at the end. -/

namespace LogCodec

/-- The result of writing a message. -/
structure Rendering where
  /-- What was written, all of the message if there is no fault. -/
  text : Bytes
  /-- Why writing stopped. -/
  fault : Option DecodeFault
deriving DecidableEq

/-- What is left to be used, and what was written. -/
structure Rendering.Stage (w : Width) where
  /-- What was written, the last byte first. -/
  written : Bytes
  /-- The inline variables not yet used. -/
  inline : List (Variable w)
  /-- The ends of the dictionary variables not yet used. -/
  ends : List Offset
  /-- Where the next dictionary variable begins. -/
  start : Int
  /-- The dictionary from there on. -/
  dictionary : Bytes

namespace Rendering.Stage

variable {w : Width}

/-- Writes bytes. -/
def put (s : Stage w) (bytes : Bytes) : Stage w :=
  { s with written := bytes.reverseAux s.written }

/-- Ends here. -/
def stop (s : Stage w) (fault : Option DecodeFault) : Rendering :=
  ⟨s.written.reverse, fault⟩

/-- The next dictionary variable and what is left after it. -/
def nextToken? (s : Stage w) : Option (Bytes × Stage w) :=
  match s.ends with
  | [] => none
  | stop :: ends =>
    let size := (stop.toInt - s.start).toNat
    -- the ends of a stored message may be any numbers
    if 0 ≤ s.start ∧ s.start ≤ stop.toInt then
      (s.dictionary.splitExact? size).map fun (entry, rest) =>
        (entry, { s with ends := ends, start := stop.toInt, dictionary := rest })
    else none

end Rendering.Stage

namespace Encoded

variable {w : Width}

/-- Writes the items of a log type.  The counts in the faults are those of the
    whole message `e`. -/
def renderItems (e : Encoded w) : List LogType.Item → Rendering.Stage w → Rendering
  | [], s =>
    if s.inline.isEmpty && s.ends.isEmpty then s.stop none
    else s.stop (some (.unusedVariables
      (e.inline.length - s.inline.length) e.inline.length
      (e.ends.length - s.ends.length) e.ends.length))
  | .literal b :: items, s => renderItems e items (s.put [b])
  | .placeholder .integer :: items, s =>
    match s.inline with
    | [] => s.stop (some (.integerWithoutVariable e.inline.length))
    | v :: inline => renderItems e items ({ s with inline := inline }.put (Number.integerText v))
  | .placeholder .float :: items, s =>
    match s.inline with
    | [] => s.stop (some (.floatWithoutVariable e.inline.length))
    | v :: inline =>
      match Number.floatText v with
      | .error fault => s.stop (some fault)
      | .ok text => renderItems e items ({ s with inline := inline }.put text)
  | .placeholder .dictionary :: items, s =>
    match s.nextToken? with
    | none => s.stop (some (.noDictionaryEntry
        (e.ends.length - s.ends.length) (e.ends.map BitVec.toInt) e.dictionary.length))
    | some (entry, s) => renderItems e items (s.put entry)
  | .unknown b :: _, s => s.stop (some (.unknownPlaceholder b))
  | .dangling :: _, s => s.stop (some .danglingEscape)

/-- Writes the message after the bytes `out`. -/
def renderOnto (e : Encoded w) (out : Bytes) : Rendering :=
  e.renderItems (LogType.items e.logType) {
    written := out.reverse
    inline := e.inline
    ends := e.ends
    start := 0
    dictionary := e.dictionary }

/-- Writes the message. -/
def render (e : Encoded w) : Rendering := e.renderOnto []

/-- The message, if it can be written. -/
def decode (e : Encoded w) : Result Bytes :=
  match e.render with
  | ⟨text, none⟩ => .ok text
  | ⟨_, some fault⟩ => .error (.decode fault)

end Encoded

end LogCodec
