import LogCodec.Bytes

/-! # Wildcard queries

    A query is read from the left:

    - `*` stands for any run of characters, the empty one included,
    - `?` stands for exactly one character,
    - a backslash makes the character after it stand for itself,
    - a backslash at the end stands for nothing,
    - every other character stands for itself.

    `Query.clean` brings the text of a query into a normal form with the same
    meaning. -/

namespace LogCodec

/-- A wildcard query. -/
structure Query where
  text : String
  /-- Must letters agree in case?  If not, ASCII letters match both cases. -/
  caseSensitive : Bool
deriving DecidableEq

namespace Query

/-- One item of a query. -/
inductive Token where
  /-- Any run of characters. -/
  | any
  /-- Exactly one character. -/
  | one
  /-- This character. -/
  | literal (c : Char)
deriving DecidableEq

/-- The items of a query. -/
def tokens : List Char → List Token
  | [] => []
  | '\\' :: [] => []
  | '\\' :: c :: rest => .literal c :: tokens rest
  | '*' :: rest => .any :: tokens rest
  | '?' :: rest => .one :: tokens rest
  | c :: rest => .literal c :: tokens rest

/-- The normal form of a query: runs of `*` become one, and a backslash at the
    end is removed. -/
def clean : List Char → List Char
  | [] => []
  | '\\' :: [] => []
  | '\\' :: c :: rest => '\\' :: c :: clean rest
  | '*' :: '*' :: rest => clean ('*' :: rest)
  | c :: rest => c :: clean rest

/-- Does a character of a query agree with a character of a text? -/
def agrees (caseSensitive : Bool) (a b : Char) : Bool :=
  if caseSensitive then a == b else Ascii.lower a == Ascii.lower b

/-! ### Meaning -/

/-- The texts that a list of items stands for. -/
inductive Matches (caseSensitive : Bool) : List Token → List Char → Prop where
  | nil : Matches caseSensitive [] []
  | any {tokens : List Token} (run : List Char) {rest : List Char} :
      Matches caseSensitive tokens rest → Matches caseSensitive (.any :: tokens) (run ++ rest)
  | one {tokens : List Token} (c : Char) {rest : List Char} :
      Matches caseSensitive tokens rest → Matches caseSensitive (.one :: tokens) (c :: rest)
  | literal {tokens : List Token} {a b : Char} {rest : List Char} :
      agrees caseSensitive a b = true → Matches caseSensitive tokens rest →
      Matches caseSensitive (.literal a :: tokens) (b :: rest)

/-! ### Deciding -/

/-- Does the item accept this one character? -/
def Token.accepts (caseSensitive : Bool) : Token → Char → Bool
  | any, _ => false
  | one, _ => true
  | literal a, b => agrees caseSensitive a b

/-- For each entry, whether it or one after it is true. -/
def orLater (row : List Bool) : List Bool :=
  row.foldr (fun b later => (b || later.headD false) :: later) []

/-- For each suffix of a text, from the whole text to the empty one, whether the
    items match it.  The row of the items after the first is computed first, so
    that the time is the product of the two lengths. -/
def suffixRow (caseSensitive : Bool) (text : List Char) : List Token → List Bool
  | [] => text.foldr (fun _ row => false :: row) [true]
  | .any :: rest => orLater (suffixRow caseSensitive text rest)
  -- one item takes one character, so each entry depends on that of the next suffix
  | token :: rest =>
    List.zipWith (fun c later => token.accepts caseSensitive c && later)
      text (suffixRow caseSensitive text rest).tail ++ [false]

/-- Do the items match all of the text? -/
def matchesText (caseSensitive : Bool) (tokens : List Token) (text : List Char) : Bool :=
  (suffixRow caseSensitive text tokens).headD false

end Query

end LogCodec
