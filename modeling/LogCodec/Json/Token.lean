import LogCodec.Json.Numeral

/-! # Tokens of JSON

    An automaton reads a text one character at a time and collects its tokens.
    It stands between tokens, in a word (a number or one of the three names),
    in a string, or in one of the steps of an escape. -/

namespace LogCodec.Json

/-- A token of a JSON text. -/
inductive Token where
  | openObject
  | closeObject
  | openArray
  | closeArray
  | colon
  | comma
  | null
  | bool (b : Bool)
  | number (text : List Char)
  | string (chars : List Char)
deriving DecidableEq

namespace Token

/-! ### Classes of characters -/

/-- The four characters that may stand between tokens. -/
def isSpace (c : Char) : Bool := c == ' ' || c == '\t' || c == '\n' || c == '\r'

/-- Characters of numbers and names. -/
def isWordChar (c : Char) : Bool := c.isAlphanum || c == '+' || c == '-' || c == '.'

/-- The token that is one character. -/
def ofPunctuation? : Char → Option Token
  | '\x7b' => some openObject
  | '\x7d' => some closeObject
  | '[' => some openArray
  | ']' => some closeArray
  | ':' => some colon
  | ',' => some comma
  | _ => none

/-- The token that a word is. -/
def ofWord? (word : List Char) : Option Token :=
  if word = "null".toList then some null
  else if word = "true".toList then some (bool true)
  else if word = "false".toList then some (bool false)
  else if Numeral.isAcceptable word then some (number word)
  else none

/-- The character that an escape of one letter stands for. -/
def ofEscape? : Char → Option Char
  | '"' => some '"'
  | '\\' => some '\\'
  | '/' => some '/'
  | 'b' => some '\x08'
  | 'f' => some '\x0c'
  | 'n' => some '\n'
  | 'r' => some '\r'
  | 't' => some '\t'
  | _ => none

/-- The value of a hexadecimal digit. -/
def hexValue? (c : Char) : Option Nat :=
  if '0' ≤ c ∧ c ≤ '9' then some (c.toNat - '0'.toNat)
  else if 'a' ≤ c ∧ c ≤ 'f' then some (c.toNat - 'a'.toNat + 10)
  else if 'A' ≤ c ∧ c ≤ 'F' then some (c.toNat - 'A'.toNat + 10)
  else none

/-! ### The automaton -/

/-- Where the automaton stands.  Collected characters are kept with the last one
    first. -/
inductive Mode where
  /-- Between two tokens. -/
  | between
  /-- In a number or a name. -/
  | word (chars : List Char)
  /-- In a string. -/
  | string (chars : List Char)
  /-- After a backslash in a string. -/
  | escape (chars : List Char)
  /-- In the four digits of a code unit, after a high surrogate or not. -/
  | unit (chars : List Char) (high : Option Nat) (missing value : Nat)
  /-- After a high surrogate, where another code unit must follow. -/
  | pair (chars : List Char) (high : Nat)
  /-- After the backslash of that code unit. -/
  | pairEscape (chars : List Char) (high : Nat)

/-- The tokens so far, the last one first, and where the automaton stands. -/
structure Scan where
  tokens : List Token
  mode : Mode

/-- Ends a word. -/
def endWord (tokens : List Token) (chars : List Char) : Option (List Token) :=
  (ofWord? chars.reverse).map (· :: tokens)

/-- A character outside of strings, when no word is open. -/
def startToken (tokens : List Token) (c : Char) : Option Scan :=
  if isSpace c then some ⟨tokens, .between⟩
  else if c = '"' then some ⟨tokens, .string []⟩
  else if isWordChar c then some ⟨tokens, .word [c]⟩
  else (ofPunctuation? c).map fun t => ⟨t :: tokens, .between⟩

/-- The end of the four digits of a code unit.  A high surrogate must be followed
    by a low one, and a low one must follow a high one. -/
def endUnit (chars : List Char) (high : Option Nat) (value : Nat) : Option Mode :=
  match high with
  | none =>
    if 0xD800 ≤ value ∧ value ≤ 0xDBFF then some (.pair chars value)
    else if 0xDC00 ≤ value ∧ value ≤ 0xDFFF then none
    else some (.string (Char.ofNat value :: chars))
  | some high =>
    if 0xDC00 ≤ value ∧ value ≤ 0xDFFF then
      some (.string (Char.ofNat (0x10000 + (high - 0xD800) * 0x400 + (value - 0xDC00)) :: chars))
    else none

/-- One character. -/
def step (s : Scan) (c : Char) : Option Scan :=
  match s.mode with
  | .between => startToken s.tokens c
  | .word chars =>
    if isWordChar c then some { s with mode := .word (c :: chars) }
    -- the character after a word may start a token itself
    else (endWord s.tokens chars).bind (startToken · c)
  | .string chars =>
    if c = '"' then some ⟨.string chars.reverse :: s.tokens, .between⟩
    else if c = '\\' then some { s with mode := .escape chars }
    else if c < ' ' then none
    else some { s with mode := .string (c :: chars) }
  | .escape chars =>
    if c = 'u' then some { s with mode := .unit chars none 4 0 }
    else (ofEscape? c).map fun e => { s with mode := .string (e :: chars) }
  | .unit chars high missing value =>
    (hexValue? c).bind fun digit =>
      if missing = 1 then
        (endUnit chars high (value * 16 + digit)).map fun mode => { s with mode := mode }
      else some { s with mode := .unit chars high (missing - 1) (value * 16 + digit) }
  | .pair chars high => if c = '\\' then some { s with mode := .pairEscape chars high } else none
  | .pairEscape chars high =>
    if c = 'u' then some { s with mode := .unit chars (some high) 4 0 } else none

/-- The end of the text. -/
def finish (s : Scan) : Option (List Token) :=
  match s.mode with
  | .between => some s.tokens.reverse
  | .word chars => (endWord s.tokens chars).map List.reverse
  | _ => none

/-- The tokens of a text. -/
def ofText? (text : List Char) : Option (List Token) :=
  (text.foldlM step ⟨[], .between⟩).bind finish

end Token

end LogCodec.Json
