import LogCodec.Json.Token

/-! # JSON values

    - `Json.parse?` reads one value from a text.  The tokens are put together
      with a stack of the arrays and objects that are still open, of which
      there may be at most `Json.depthMax`.
    - `Json.ofStrings` writes an object of strings in its shortest form. -/

namespace LogCodec

/-- A JSON value.  A number is kept as it is written. -/
inductive Json where
  | null
  | bool (b : Bool)
  | number (text : List Char)
  | string (chars : List Char)
  | array (items : List Json)
  | object (members : List (List Char × Json))

namespace Json

/-! ### Reading -/

/-- The most arrays and objects that may be inside one another. -/
def depthMax : Nat := 127

/-- An array or object that is still open.  Items and members are kept with the
    last one first. -/
inductive Frame where
  | array (items : List Json)
  | object (members : List (List Char × Json)) (key : List Char)

/-- What may come next. -/
inductive State where
  /-- A value. -/
  | value (stack : List Frame)
  /-- The first item of an array, or its end. -/
  | firstItem (stack : List Frame)
  /-- The first key of an object, or its end. -/
  | firstKey (stack : List Frame)
  /-- A key after a comma. -/
  | key (stack : List Frame) (members : List (List Char × Json))
  /-- The colon after a key. -/
  | colon (stack : List Frame) (members : List (List Char × Json)) (key : List Char)
  /-- A comma, or the end of the innermost array or object. -/
  | separator (frame : Frame) (stack : List Frame)
  /-- Nothing. -/
  | finished (value : Json)

/-- A value is complete. -/
def complete (value : Json) : List Frame → State
  | [] => .finished value
  | .array items :: stack => .separator (.array (value :: items)) stack
  | .object members key :: stack => .separator (.object ((key, value) :: members) key) stack

/-- Opens an array or object when there are not too many open already. -/
def enter (stack : List Frame) (next : State) : Option State :=
  if stack.length < depthMax then some next else none

/-- A token where a value is expected. -/
def startValue (stack : List Frame) : Token → Option State
  | .openObject => enter stack (.firstKey stack)
  | .openArray => enter stack (.firstItem stack)
  | .null => some (complete .null stack)
  | .bool b => some (complete (.bool b) stack)
  | .number text => some (complete (.number text) stack)
  | .string chars => some (complete (.string chars) stack)
  | _ => none

/-- One token. -/
def step : State → Token → Option State
  | .value stack, t => startValue stack t
  | .firstItem stack, .closeArray => some (complete (.array []) stack)
  | .firstItem stack, t => startValue (.array [] :: stack) t
  | .firstKey stack, .closeObject => some (complete (.object []) stack)
  | .firstKey stack, .string key => some (.colon stack [] key)
  | .key stack members, .string key => some (.colon stack members key)
  | .colon stack members key, .colon => some (.value (.object members key :: stack))
  | .separator (.array items) stack, .comma => some (.value (.array items :: stack))
  | .separator (.array items) stack, .closeArray => some (complete (.array items.reverse) stack)
  | .separator (.object members _) stack, .comma => some (.key stack members)
  | .separator (.object members _) stack, .closeObject =>
    some (complete (.object members.reverse) stack)
  | _, _ => none

/-- The value that a list of tokens is. -/
def ofTokens? (tokens : List Token) : Option Json :=
  match tokens.foldlM step (.value []) with
  | some (.finished value) => some value
  | _ => none

/-- The value that a text is. -/
def parse? (text : List Char) : Option Json := (Token.ofText? text).bind ofTokens?

/-- The value of a key, the last one when the key is repeated. -/
def member? (key : List Char) (members : List (List Char × Json)) : Option Json :=
  members.reverse.lookup key

/-! ### Writing -/

/-- A character inside a string.  Quotes, backslashes and control characters are
    escaped, and nothing else. -/
def escapeChar (c : Char) : List Char :=
  if c = '"' then ['\\', '"']
  else if c = '\\' then ['\\', '\\']
  else if c = '\x08' then ['\\', 'b']
  else if c = '\x0c' then ['\\', 'f']
  else if c = '\n' then ['\\', 'n']
  else if c = '\r' then ['\\', 'r']
  else if c = '\t' then ['\\', 't']
  else if c < ' ' then
    ['\\', 'u', '0', '0', Nat.digitChar (c.toNat / 16), Nat.digitChar (c.toNat % 16)]
  else [c]

/-- A string between quotes. -/
def quote (chars : List Char) : List Char := '"' :: chars.flatMap escapeChar ++ ['"']

/-- An object of strings, without blanks. -/
def ofStrings (members : List (List Char × List Char)) : List Char :=
  '\x7b' :: [','].intercalate (members.map fun (key, value) => quote key ++ ':' :: quote value)
    ++ ['\x7d']

end Json

end LogCodec
