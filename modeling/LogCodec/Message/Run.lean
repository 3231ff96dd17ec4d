import LogCodec.Bytes

/-! # Runs

    A message is cut into maximal runs of delimiters and of other bytes.  A
    run of other bytes is a word, and a word is a variable when it

    - contains a digit, or
    - stands directly after `=` and contains a letter, or
    - has two or more bytes, all of them hexadecimal digits. -/

namespace LogCodec

/-- Does the byte separate words?  Words consist of `+`, `-`, `.`, `/`, digits,
    letters, `\` and `_`; every byte outside ASCII is a delimiter. -/
def isDelimiter (b : UInt8) : Bool :=
  !(b == 0x2B || (0x2D ≤ b && b ≤ 0x39) || Ascii.isLetter b || b == 0x5C || b == 0x5F)

/-- The byte that makes a word of letters after it a variable. -/
def equalsSign : UInt8 := 0x3D

/-- A maximal run of a message. -/
inductive Run where
  /-- Delimiters. -/
  | gap (bytes : Bytes)
  /-- Other bytes, with whether an equals sign stands directly before them. -/
  | word (afterEquals : Bool) (bytes : Bytes)
deriving DecidableEq

namespace Run

/-- The bytes of a run. -/
def bytes : Run → Bytes
  | gap b => b
  | word _ b => b

/-- Could the word be a number in hexadecimal notation of more than one digit? -/
def isMultiDigitHex (token : Bytes) : Bool := 2 ≤ token.length && token.all Ascii.isHexDigit

/-- Is the run a variable? -/
def isVariable : Run → Bool
  | gap _ => false
  | word afterEquals token =>
    token.any Ascii.isDigit || (afterEquals && token.any Ascii.isLetter) || isMultiDigitHex token

/-! ### Cutting a message -/

/-- Puts a byte in front of the runs of the bytes after it. -/
def push (b : UInt8) : List Run → List Run
  | [] => if isDelimiter b then [gap [b]] else [word false [b]]
  | gap g :: rest => if isDelimiter b then gap (b :: g) :: rest else word false [b] :: gap g :: rest
  | word afterEquals token :: rest =>
    -- the word is complete, and now the byte before it is known
    if isDelimiter b then gap [b] :: word (b == equalsSign) token :: rest
    else word afterEquals (b :: token) :: rest

/-- The maximal runs of a message, from left to right. -/
def ofMessage (message : Bytes) : List Run := message.foldr push []

/-- A byte is put in front of the bytes of the runs. -/
theorem flatMap_bytes_push (b : UInt8) (runs : List Run) :
    (push b runs).flatMap bytes = b :: runs.flatMap bytes := by
  cases runs with
  | nil =>
    rw [push]
    split <;> rfl
  | cons run rest =>
    cases run <;> rw [push] <;> split <;> rfl

/-- The runs of a message, one after another, are the message. -/
theorem flatMap_bytes_ofMessage (message : Bytes) :
    (ofMessage message).flatMap bytes = message := by
  induction message with
  | nil => rfl
  | cons b rest ih =>
    rw [ofMessage, List.foldr_cons, flatMap_bytes_push]
    exact congrArg (b :: ·) ih

/-! ### Bounds of variables -/

/-- Says of a word at the front whether an equals sign stands before it. -/
def markFirst (afterEquals : Bool) : List Run → List Run
  | word _ token :: rest => word afterEquals token :: rest
  | runs => runs

/-- Where the variables among the runs begin and end, when the first run begins
    at `start`. -/
def bounds (start : Nat) : List Run → List (Nat × Nat)
  | [] => []
  | run :: rest =>
    let stop := start + run.bytes.length
    if run.isVariable then (start, stop) :: bounds stop rest else bounds stop rest

end Run

/-- The bounds `[begin, end)` of the variables in a message at or after a
    position.  A position inside a word begins a new word there. -/
def variableBounds (message : Bytes) (pos : Nat) : List (Nat × Nat) :=
  let afterEquals := 0 < pos && message[pos - 1]? == some equalsSign
  Run.bounds pos (Run.markFirst afterEquals (Run.ofMessage (message.drop pos)))

/-- The bounds of the next variable at or after a position. -/
def nextVariable? (message : Bytes) (pos : Nat) : Option (Nat × Nat) :=
  (variableBounds message pos).head?

end LogCodec
