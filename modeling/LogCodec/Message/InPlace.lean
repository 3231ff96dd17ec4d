import LogCodec.Message.Rendering

/-! # Messages in buffers that are used again

    A program that handles many messages keeps its buffers from one message to the next.
    Each message is put together in them part by part.  A message that fails leaves them
    filled with what was written until then.

    - `EncodedBuffer`: the buffers for the fields of an encoded message.
    - `Encoder`: encodes messages one after another.
    - `Decoder`: decodes messages one after another. -/

namespace LogCodec

/-- The buffers for the fields of an encoded message. -/
structure EncodedBuffer (w : Width) where
  logType : Array UInt8
  inline : Array (Variable w)
  dictionary : Array UInt8
  ends : Array Offset

namespace EncodedBuffer

variable {w : Width}

def empty : EncodedBuffer w := ⟨#[], #[], #[], #[]⟩

/-- What the buffers hold. -/
def contents (b : EncodedBuffer w) : Encoded w :=
  ⟨b.logType.toList, b.inline.toList, b.dictionary.toList, b.ends.toList⟩

/-- Buffers that hold this message. -/
def ofEncoded (e : Encoded w) : EncodedBuffer w :=
  ⟨e.logType.toArray, e.inline.toArray, e.dictionary.toArray, e.ends.toArray⟩

@[simp] theorem contents_ofEncoded (e : Encoded w) : (ofEncoded e).contents = e := rfl

/-- Empties all four buffers. -/
def clear (b : EncodedBuffer w) : EncodedBuffer w :=
  { b with logType := #[], inline := #[], dictionary := #[], ends := #[] }

/-- Writes a part behind what is there.  A dictionary variable is written before its end is
    looked at. -/
def put (b : EncodedBuffer w) (part : Part w) : Result Unit × EncodedBuffer w :=
  let b := { b with
    logType := b.logType ++ part.logType
    inline := b.inline ++ part.inline?.toList }
  match part.token? with
  | none => (.ok (), b)
  | some token =>
    let b := { b with dictionary := b.dictionary ++ token }
    let size := b.dictionary.size
    if Encoded.endMax < size then (.error (.encode (.dictionaryTooLong size)), b)
    else (.ok (), { b with ends := b.ends.push (BitVec.ofNat _ size) })

/-- Writes parts until one fails. -/
def putAll (b : EncodedBuffer w) : List (Part w) → Result Unit × EncodedBuffer w
  | [] => (.ok (), b)
  | part :: rest =>
    match b.put part with
    | (.ok _, b) => b.putAll rest
    | (.error error, b) => (.error error, b)

/-- Encodes a message in the buffers. -/
def encode (b : EncodedBuffer w) (message : Bytes) : Result Unit × EncodedBuffer w :=
  b.clear.putAll ((Run.ofMessage message).map (Part.ofRun w))

end EncodedBuffer

/-! ### Encoders -/

/-- Encodes messages in the same buffers. -/
structure Encoder (w : Width) where
  buffer : EncodedBuffer w

namespace Encoder

variable {w : Width}

def new : Encoder w := ⟨.empty⟩

/-- Encodes a message.  The result is what the buffers hold then. -/
def encode (x : Encoder w) (message : Bytes) : Result (Encoded w) × Encoder w :=
  match x.buffer.encode message with
  | (.ok _, buffer) => (.ok buffer.contents, ⟨buffer⟩)
  | (.error error, buffer) => (.error error, ⟨buffer⟩)

/-- The results for several messages. -/
def encodeAll (x : Encoder w) : List Bytes → List (Result (Encoded w))
  | [] => []
  | message :: rest => (x.encode message).1 :: (x.encode message).2.encodeAll rest

end Encoder

/-! ### Decoders -/

/-- Decodes messages into the same buffer. -/
structure Decoder where
  text : Bytes

namespace Decoder

def new : Decoder := ⟨[]⟩

def clear (x : Decoder) : Decoder := { x with text := [] }

/-- Writes a message behind what is there. -/
def put {w : Width} (x : Decoder) (e : Encoded w) : Result Unit × Decoder :=
  match e.renderOnto x.text with
  | ⟨text, none⟩ => (.ok (), ⟨text⟩)
  | ⟨text, some fault⟩ => (.error (.decode fault), ⟨text⟩)

/-- Decodes a message.  The result is what the buffer holds then. -/
def decode {w : Width} (x : Decoder) (e : Encoded w) : Result Bytes × Decoder :=
  match x.clear.put e with
  | (.ok _, x) => (.ok x.text, x)
  | (.error error, x) => (.error error, x)

/-- The results for several messages, which may be of either width. -/
def decodeAll (x : Decoder) : List ((w : Width) × Encoded w) → List (Result Bytes)
  | [] => []
  | message :: rest => (x.decode message.2).1 :: (x.decode message.2).2.decodeAll rest

end Decoder

end LogCodec
