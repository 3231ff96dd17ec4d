import LogCodec.Reader.Basic

/-! # Reading to the end

    A stream is read until reading fails, which the end of the stream counts
    as.  What was found until then is kept.

    - `Reader.allEvents` reads all events.
    - `Reader.allMatches` reads all events in an interval that match a query. -/

namespace LogCodec

namespace Reader

/-- Reading in some way uses bytes of the stream whenever it finds something. -/
def Productive {α : Type} (read : Reader → Result α × Reader) : Prop :=
  ∀ {r r' : Reader} {a : α}, read r = (.ok a, r') → r'.ahead < r.ahead

theorem productive_next : Productive next := ahead_of_next

theorem productive_nextPassing (interval : Interval) (test : Bytes → Option Nat) :
    Productive fun r => r.nextPassing interval test := by
  intro r r' found h
  dsimp only at h
  fun_induction nextPassing r interval test with
  | case1 r search window deserializer found' hf =>
    simp only [Prod.mk.injEq] at h
    obtain ⟨-, rfl⟩ := h
    -- the search used a record, and no more than the window has
    have := Deserializer.lt_consumed_of_findFrom hf
    have := Deserializer.consumed_search_le r.deserializer interval test r.window.bytes
    simp only [ahead, window, search, Window.bytes_consume, List.length_drop,
      Deserializer.search] at *
    omega
  | case2 r search window deserializer hs window' source hf ih
  | case5 r search window deserializer hs window' source hf ih =>
    have hi := ih h
    have hl := (Window.length_of_fill_more hf).2
    simp only [ahead, window, Window.bytes_consume, List.length_drop] at hi hl ⊢
    omega
  | case3 | case4 | case6 | case7 | case8 => cases h

theorem productive_nextMatch (interval : Interval) (matcher : Matcher) :
    Productive fun r => r.nextMatch interval matcher :=
  productive_nextPassing interval matcher.find?

/-! ### All that is left -/

/-- What was found in a stream, in order. -/
structure Collected (α : Type) where
  items : List α
  /-- Why there are no more. -/
  error : Error
  /-- The reader after that. -/
  reader : Reader

/-- Reads in some way until that fails, after `items` were found, the last one
    first. -/
def collectFrom {α : Type} (read : Reader → Result α × Reader) (productive : Productive read)
    (items : List α) (r : Reader) : Collected α :=
  match _h : read r with
  | (.ok item, r') => collectFrom read productive (item :: items) r'
  | (.error error, r') => ⟨items.reverse, error, r'⟩
termination_by r.ahead
decreasing_by exact productive _h

/-- Reads all events that are left. -/
def allEvents (r : Reader) : Collected Event := collectFrom next productive_next [] r

/-- Reads all events that are left, are in the interval and match a query. -/
def allMatches (r : Reader) (interval : Interval) (queries : List Query) : Collected Match :=
  collectFrom _ (productive_nextMatch interval (Matcher.ofQueries queries)) [] r

end Reader

end LogCodec
