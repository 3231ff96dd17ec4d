import LogCodec.Error
import LogCodec.Query.Matcher

/-! # Queries as globs

    Globs are another language of patterns.  In it brackets stand around the
    characters that a character may be, and a run of `*` is no pattern or one for
    paths, so a query is translated before a library of globs reads it.

    - `Glob`: what is used of such a library.
    - `Glob.plain`: the least such library that reads every translated query.
    - `Query.toGlob`: the translation.
    - `Query.matchesBy`: one query, matched by a library.
    - `Glob.Matcher`: a list of queries that a library read once, for many messages. -/

namespace LogCodec

/-! ### Libraries of globs -/

/-- How a glob is matched. -/
structure Glob.Options where
  /-- Must letters agree in case? -/
  caseSensitive : Bool
  /-- Are the separators of paths matched by themselves only? -/
  literalSeparator : Bool
  /-- Is a dot at the front of a component matched by itself only? -/
  literalLeadingDot : Bool
deriving DecidableEq

/-- A library of globs. -/
structure Glob where
  /-- A glob that was read. -/
  Pattern : Type
  /-- Reads a glob, or says what is wrong with it. -/
  parse : List Char → Except String Pattern
  /-- The glob of exactly this text. -/
  escape : List Char → List Char
  /-- Does the pattern match all of the text? -/
  accepts : Pattern → Glob.Options → List Char → Bool

namespace Glob

/-- Does the character have a meaning of its own in globs? -/
def isSpecial (c : Char) : Bool := c = '?' || c = '*' || c = '[' || c = ']'

/-- Puts brackets around the characters with a meaning of their own. -/
def bracket (text : List Char) : List Char :=
  text.flatMap fun c => if isSpecial c then ['[', c, ']'] else [c]

/-- The items of a glob without runs of `*`, and with one character at most between
    brackets. -/
def items : List Char → Except String (List Query.Token)
  | [] => return []
  | '*' :: '*' :: _ => throw "wildcards are either regular `*` or recursive `**`"
  | '*' :: rest => return .any :: (← items rest)
  | '?' :: rest => return .one :: (← items rest)
  | '[' :: c :: ']' :: rest =>
    if isSpecial c then return .literal c :: (← items rest) else throw "invalid range pattern"
  | '[' :: _ => throw "invalid range pattern"
  | c :: rest => return .literal c :: (← items rest)

/-- Globs in which neither separators nor dots have a meaning. -/
def plain : Glob where
  Pattern := List Query.Token
  parse := items
  escape := bracket
  accepts pattern options text := Query.matchesText options.caseSensitive pattern text

end Glob

/-! ### Translating -/

namespace Query

/-- Translates a query in normal form.  Its wildcards are wildcards of globs, and
    every other character is escaped. -/
def translate (glob : Glob) : List Char → List Char
  | [] => []
  | '\\' :: [] => []
  | '\\' :: c :: rest => glob.escape [c] ++ translate glob rest
  | '*' :: rest => '*' :: translate glob rest
  | '?' :: rest => '?' :: translate glob rest
  | c :: rest => glob.escape [c] ++ translate glob rest

/-- The glob of a query. -/
def toGlob (glob : Glob) (query : List Char) : List Char := translate glob (clean query)

/-- How the glob of a query is matched.  Messages are not paths. -/
def options (q : Query) : Glob.Options where
  caseSensitive := q.caseSensitive
  literalSeparator := false
  literalLeadingDot := false

/-- The pattern of a query.  The error has the query as it was written. -/
def compileBy (q : Query) (glob : Glob) : Result glob.Pattern :=
  (glob.parse (toGlob glob q.text.toList)).mapError fun reason =>
    .invalidQuery (Quoted.string q.text ++ ": " ++ reason)

/-- Does the query match all of the message? -/
def matchesBy (q : Query) (glob : Glob) (message : Bytes) : Result Bool := do
  let pattern ← q.compileBy glob
  return glob.accepts pattern q.options (Utf8.lossy message)

end Query

/-! ### Lists of queries -/

/-- The patterns of a list of queries, each with how it is matched. -/
structure Glob.Matcher (glob : Glob) where
  patterns : List (glob.Pattern × Glob.Options)

namespace Glob.Matcher

variable {glob : Glob}

/-- Reads the queries, up to the first one that cannot be read. -/
def ofQueries (glob : Glob) (queries : List Query) : Result (Matcher glob) := do
  let patterns ← queries.mapM fun q => return (← q.compileBy glob, q.options)
  return ⟨patterns⟩

/-- How many queries there are. -/
def size (m : Matcher glob) : Nat := m.patterns.length

/-- Are there no queries?  Then nothing matches. -/
def isEmpty (m : Matcher glob) : Bool := m.patterns.isEmpty

/-- The index of the first query that matches all of the message. -/
def find? (m : Matcher glob) (message : Bytes) : Option Nat :=
  if m.isEmpty then none
  else
    let text := Utf8.lossy message
    m.patterns.findIdx? fun (pattern, options) => glob.accepts pattern options text

end Glob.Matcher

end LogCodec
