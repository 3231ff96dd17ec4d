import LogCodec.Query.Token
import LogCodec.Text.Utf8

/-! # Matching messages

    A message is matched as the text of its bytes, with U+FFFD for each
    maximal invalid part.

    - `Query.matchesMessage` matches one query.
    - `Matcher` is a list of queries that was read once, for many messages. -/

namespace LogCodec

namespace Query

/-- The items of the normal form of a query. -/
def compile (q : Query) : List Token := tokens (clean q.text.toList)

/-- Does the query match all of the message? -/
def matchesMessage (q : Query) (message : Bytes) : Bool :=
  matchesText q.caseSensitive q.compile (Utf8.lossy message)

end Query

/-- A list of queries, read once. -/
structure Matcher where
  /-- For each query whether it is case sensitive, and its items. -/
  compiled : List (Bool × List Query.Token)
deriving DecidableEq

namespace Matcher

/-- The matcher of a list of queries. -/
def ofQueries (queries : List Query) : Matcher :=
  ⟨queries.map fun q => (q.caseSensitive, q.compile)⟩

/-- How many queries there are. -/
def size (m : Matcher) : Nat := m.compiled.length

/-- Are there no queries?  Then nothing matches. -/
def isEmpty (m : Matcher) : Bool := m.compiled.isEmpty

/-- The index of the first query that matches the message. -/
def find? (m : Matcher) (message : Bytes) : Option Nat :=
  let text := Utf8.lossy message
  m.compiled.findIdx? fun (caseSensitive, tokens) => Query.matchesText caseSensitive tokens text

end Matcher

end LogCodec
