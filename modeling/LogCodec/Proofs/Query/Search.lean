import LogCodec.Proofs.Query.Matcher
import LogCodec.Proofs.Stream.Feed

/-! # Searching with globs

    With a library of globs that does what it documents, every search comes to what the
    search for the items of its queries comes to.  So whatever holds of the one holds of
    the other.

    - `Deserializer.findBy_eq_find`: a search of some bytes.
    - `Feed.serveBy_eq_serve`: searches of a stream that arrives in pieces.
    - `Reader.readMatchBy_eq_readMatch`: a search of a reader, and
      `Reader.allMatchesBy_eq_allMatches` for all that is left of its stream.
    - `Command.searchStreamBy_eq_searchStream`: the command. -/

namespace LogCodec

/-! ### Callers -/

namespace Feed

/-- Searches with queries that are read for each call, and once more with the next piece
    when the search asks for more bytes. -/
def searchBy (glob : Glob) (interval : Interval) (queries : List Query) (f : Feed) :
    Result Match × Feed :=
  let s := Deserializer.findBy glob f.deserializer interval queries f.unread
  match s.result, _h : f.coming with
  | .error .incomplete, piece :: coming | .error .noMatch, piece :: coming =>
    searchBy glob interval queries { f.drop s with unread := (f.drop s).unread ++ piece, coming }
  | result, _ => (result, f.drop s)
termination_by f.coming.length
decreasing_by all_goals simp [_h]

/-- Searches for one thing after another. -/
def serveBy (glob : Glob) (f : Feed) : List (Interval × List Query) → List Reply
  | [] => []
  | (interval, queries) :: rest =>
    let (result, f) := f.searchBy glob interval queries
    ⟨result, f.used, f.deserializer.runningTimestamp?, f.deserializer.ended⟩ :: f.serveBy glob rest

end Feed

/-! ### The same searches -/

variable {glob : Glob} (hglob : glob.Documented)

include hglob

theorem Deserializer.findBy_eq_find (d : Deserializer) (interval : Interval)
    (queries : List Query) (bytes : Bytes) :
    findBy glob d interval queries bytes = d.find interval (Matcher.ofQueries queries) bytes := by
  obtain ⟨matcher, hmatcher⟩ := Glob.Matcher.exists_ofQueries hglob queries
  rw [findBy, hmatcher, find, ← Glob.Matcher.find?_eq_find?_ofQueries hglob hmatcher]
  rfl

theorem Feed.searchBy_eq_search (f : Feed) (interval : Interval) (queries : List Query) :
    f.searchBy glob interval queries = f.search interval (Matcher.ofQueries queries) := by
  -- on the pieces that are still to come
  obtain ⟨d, unread, coming, taken⟩ := f
  induction coming generalizing d unread taken with
  | nil =>
    rw [searchBy, search, Deserializer.findBy_eq_find hglob]
    split <;> simp_all
  | cons piece coming ih =>
    rw [searchBy, search, Deserializer.findBy_eq_find hglob]
    split <;> simp_all [drop]

/-- **A stream that arrives in pieces** is searched with the same replies. -/
theorem Feed.serveBy_eq_serve (f : Feed) (requests : List (Interval × List Query)) :
    f.serveBy glob requests = f.serve requests := by
  induction requests generalizing f with
  | nil => rfl
  | cons request rest ih =>
    simp only [serveBy, serve, searchBy_eq_search hglob, ih]

namespace Reader

theorem nextBy_eq_nextMatch (r : Reader) (interval : Interval) (queries : List Query) :
    r.nextBy glob interval queries = r.nextMatch interval (Matcher.ofQueries queries) := by
  obtain ⟨matcher, hmatcher⟩ := Glob.Matcher.exists_ofQueries hglob queries
  rw [nextBy, hmatcher, nextMatch, ← Glob.Matcher.find?_eq_find?_ofQueries hglob hmatcher]

/-- **A reader** finds the same event, or fails in the same way. -/
theorem readMatchBy_eq_readMatch (r : Reader) (interval : Interval) (queries : List Query) :
    r.readMatchBy glob interval queries = r.readMatch interval queries := by
  rw [readMatchBy, readMatch, nextBy_eq_nextMatch hglob]

theorem allMatchesBy_eq_allMatches (r : Reader) (interval : Interval) (queries : List Query) :
    r.allMatchesBy glob interval queries = r.allMatches interval queries := by
  have hread : (fun r : Reader => r.nextBy glob interval queries) =
      fun r => r.nextMatch interval (Matcher.ofQueries queries) := by
    funext r
    exact nextBy_eq_nextMatch hglob r interval queries
  simp only [allMatchesBy, allMatches, hread]

end Reader

/-- **The command** writes the same, and ends in the same way. -/
theorem Command.searchStreamBy_eq_searchStream (input : String) (queries : List Query)
    (interval : Interval) (style : TextLog.TimestampStyle) (stream : Source) :
    searchStreamBy glob input queries interval style stream =
      searchStream input queries interval style stream := by
  simp only [searchStreamBy, searchStream, Reader.allMatchesBy_eq_allMatches hglob]

end LogCodec
