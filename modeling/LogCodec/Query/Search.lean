import LogCodec.Command.Basic
import LogCodec.Query.Glob

/-! # Searching with queries that are read as globs

    Here a message is tested by a library of globs.  The queries are read before a search
    looks at a stream.

    - `Deserializer.findWith`: a search with queries that the caller has read.
    - `Deserializer.findBy`: a search that reads its queries itself.
    - `Reader.readMatchBy`: the same for a reader, and `Reader.allMatchesBy` for all that is
      left of its stream.
    - `Command.searchStreamBy`: the command that searches a stream. -/

namespace LogCodec

variable {glob : Glob}

/-! ### Deserializers -/

namespace Deserializer

/-- The first event in an interval that a matcher finds. -/
def findWith (d : Deserializer) (interval : Interval) (matcher : Glob.Matcher glob)
    (bytes : Bytes) : Search :=
  d.search interval matcher.find? bytes

/-- The first event in an interval whose message matches a query.  Nothing is used when a
    query cannot be read. -/
def findBy (glob : Glob) (d : Deserializer) (interval : Interval) (queries : List Query)
    (bytes : Bytes) : Search :=
  match Glob.Matcher.ofQueries glob queries with
  | .error error => ⟨.error error, 0, d⟩
  | .ok matcher => d.findWith interval matcher bytes

end Deserializer

/-! ### Readers -/

namespace Reader

/-- Reads until an event in the interval that matches a query.  The source is not read when
    a query cannot be read. -/
def nextBy (glob : Glob) (r : Reader) (interval : Interval) (queries : List Query) :
    Result Match × Reader :=
  match Glob.Matcher.ofQueries glob queries with
  | .error error => (.error error, r)
  | .ok matcher => r.nextPassing interval matcher.find?

/-- Reads until an event in the interval that matches one of the queries. -/
def readMatchBy (glob : Glob) (r : Reader) (interval : Interval) (queries : List Query) :
    Outcome Error Match × Reader :=
  let (result, r) := r.nextBy glob interval queries
  (outcome result, r)

theorem productive_nextBy (glob : Glob) (interval : Interval) (queries : List Query) :
    Productive fun r => r.nextBy glob interval queries := by
  intro r r' found h
  dsimp only [nextBy] at h
  split at h
  · cases h
  · exact productive_nextPassing interval _ h

/-- Reads all events that are left, are in the interval and match a query.  The queries are
    read again for each of them. -/
def allMatchesBy (glob : Glob) (r : Reader) (interval : Interval) (queries : List Query) :
    Collected Match :=
  collectFrom _ (productive_nextBy glob interval queries) [] r

end Reader

/-! ### Commands -/

/-- Searches a stream. -/
def Command.searchStreamBy (glob : Glob) (input : String) (queries : List Query)
    (interval : Interval) (style : TextLog.TimestampStyle) (stream : Source) : Ending :=
  writeMatches (·.allMatchesBy glob interval queries) input style stream

end LogCodec
