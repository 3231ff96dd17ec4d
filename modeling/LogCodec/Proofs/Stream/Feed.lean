import LogCodec.Proofs.Stream.Account

/-! # Searching a stream that arrives in pieces

    A caller that is handed a stream piece by piece searches the bytes that it
    has not used yet.  When the search asks for more bytes it appends the next
    piece and searches again.

    * `Feed`: the caller.
    * `Feed.search`: its calls until one of them is settled or no piece is left.
    * `Feed.Searched`: they come to what one search of all the bytes comes to,
      use the same bytes, and leave the deserializer in the same state.
    * `Feed.serve_alike`: so do any searches after that one, whatever they look
      for.
    * `Feed.search_pieces`: the same for a stream from its first piece on. -/

namespace LogCodec

/-! ### What a search uses -/

namespace Deserializer

/-- These bytes are records of this width, one after another. -/
def Records (w : Width) (bytes : Bytes) : Prop :=
  ∃ records : List Bytes, (∀ record ∈ records, Record.Framed w record) ∧ bytes = records.flatten

theorem records_of_spells {w : Width} {records : List (Record w)} {bytes : Bytes}
    (h : Record.Spells records bytes) : Records w bytes := by
  induction h with
  | nil => exact ⟨[], fun _ h => absurd h List.not_mem_nil, rfl⟩
  | cons hr _ ih =>
    obtain ⟨others, hall, rfl⟩ := ih
    exact ⟨_ :: others, List.forall_mem_cons.2 ⟨Record.framed_iff.2 ⟨_, hr⟩, hall⟩, rfl⟩

section

variable (d : Deserializer) (interval : Interval) (matcher : Matcher) (bytes : Bytes)

theorem width_find : (d.find interval matcher bytes).after.width = d.width := by
  obtain ⟨_, haccounts⟩ := accounts_find d interval matcher bytes
  exact haccounts.width

/-- A search uses whole records. -/
theorem records_of_find :
    Records d.width (bytes.take (d.find interval matcher bytes).consumed) := by
  obtain ⟨_, haccounts⟩ := accounts_find d interval matcher bytes
  exact records_of_spells haccounts.spells

end

/-- Nothing was found and no end was met: there may be something in further bytes. -/
def AsksForMore (result : Result Match) : Prop :=
  result = .error .incomplete ∨ result = .error .noMatch

theorem Search.answer_eq_incomplete_iff {s : Search} :
    s.answer = .error .incomplete ↔ AsksForMore s.result := by
  unfold answer AsksForMore
  split
  · rename_i h
    simp [h]
  · rename_i h
    exact ⟨.inl, fun hasks => hasks.resolve_right h⟩

theorem Search.answer_of_settled {s : Search} (h : ¬ AsksForMore s.result) :
    s.answer = s.result := by
  unfold answer
  split
  · rename_i hresult
    exact absurd (.inr hresult) h
  · rfl

/-- Two searches found the same, or met the same end, or both ask for more bytes. -/
def Agree (a b : Result Match) : Prop := a = b ∨ AsksForMore a ∧ AsksForMore b

theorem Agree.symm {a b : Result Match} (h : Agree a b) : Agree b a :=
  h.imp Eq.symm And.symm

theorem Agree.trans {a b c : Result Match} (h : Agree a b) (h' : Agree b c) : Agree a c := by
  rcases h with rfl | ⟨ha, hb⟩
  · exact h'
  · rcases h' with rfl | ⟨-, hc⟩
    · exact .inr ⟨ha, hb⟩
    · exact .inr ⟨ha, hc⟩

theorem Search.answer_eq_answer_iff {s t : Search} :
    s.answer = t.answer ↔ Agree s.result t.result := by
  constructor
  · intro h
    by_cases hs : AsksForMore s.result
    · refine .inr ⟨hs, answer_eq_incomplete_iff.1 ?_⟩
      rw [← h, answer_eq_incomplete_iff.2 hs]
    · by_cases ht : AsksForMore t.result
      · rw [answer_eq_incomplete_iff.2 ht] at h
        exact absurd (answer_eq_incomplete_iff.1 h) hs
      · rw [answer_of_settled hs, answer_of_settled ht] at h
        exact .inl h
  · rintro (h | ⟨hs, ht⟩)
    · rw [answer, answer, h]
    · rw [answer_eq_incomplete_iff.2 hs, answer_eq_incomplete_iff.2 ht]

end Deserializer

open Deserializer (Agree AsksForMore Records Search)

/-! ### The caller -/

/-- A caller that is handed a stream piece by piece. -/
structure Feed where
  deserializer : Deserializer
  /-- What was handed over and is not used yet. -/
  unread : Bytes
  /-- The pieces that are still to come. -/
  coming : List Bytes
  /-- For each search that was made, the bytes that it used. -/
  taken : List Bytes

namespace Feed

/-- How many bytes were used. -/
def used (f : Feed) : Nat := f.taken.flatten.length

/-- All bytes that are not used yet. -/
def ahead (f : Feed) : Bytes := f.unread ++ f.coming.flatten

/-- Drops what a search used. -/
def drop (f : Feed) (s : Search) : Feed where
  deserializer := s.after
  unread := f.unread.drop s.consumed
  coming := f.coming
  taken := f.taken ++ [f.unread.take s.consumed]

/-- Searches, and once more with the next piece when the search asks for more
    bytes. -/
def search (interval : Interval) (matcher : Matcher) (f : Feed) : Result Match × Feed :=
  let s := f.deserializer.find interval matcher f.unread
  match s.result, _h : f.coming with
  | .error .incomplete, piece :: coming | .error .noMatch, piece :: coming =>
    search interval matcher { f.drop s with unread := (f.drop s).unread ++ piece, coming }
  | result, _ => (result, f.drop s)
termination_by f.coming.length
decreasing_by all_goals simp [_h]

variable {f : Feed} {interval : Interval} {matcher : Matcher}

theorem search_of_settled
    (h : ¬ AsksForMore (f.deserializer.find interval matcher f.unread).result) :
    f.search interval matcher = ((f.deserializer.find interval matcher f.unread).result,
      f.drop (f.deserializer.find interval matcher f.unread)) := by
  rw [search]
  split
  · rename_i hresult _
    exact absurd (.inl hresult) h
  · rename_i hresult _
    exact absurd (.inr hresult) h
  · rfl

theorem search_of_nil (h : f.coming = []) :
    f.search interval matcher = ((f.deserializer.find interval matcher f.unread).result,
      f.drop (f.deserializer.find interval matcher f.unread)) := by
  rw [search]
  split <;> simp_all

theorem search_of_asksForMore
    (h : AsksForMore (f.deserializer.find interval matcher f.unread).result) {piece : Bytes}
    {coming : List Bytes} (hcoming : f.coming = piece :: coming) :
    f.search interval matcher =
      search interval matcher { f.drop (f.deserializer.find interval matcher f.unread) with
        unread := (f.drop (f.deserializer.find interval matcher f.unread)).unread ++ piece
        coming := coming } := by
  rw [search]
  split
  · simp_all
  · simp_all
  · rcases h with h | h <;> simp_all

/-! ### One search in pieces -/

/-- What the caller's search comes to when one search of all the bytes ahead comes
    to `whole`. -/
structure Searched (f : Feed) (whole : Search) (found : Result Match × Feed) : Prop where
  result : Agree found.1 whole.result
  used : found.2.used = f.used + whole.consumed
  ahead : found.2.ahead = f.ahead.drop whole.consumed
  stream : found.2.taken.flatten ++ found.2.ahead = f.taken.flatten ++ f.ahead
  deserializer : found.2.deserializer = whole.after
  records : ∀ bytes ∈ found.2.taken, bytes ∈ f.taken ∨ Records f.deserializer.width bytes

theorem used_drop (f : Feed) {s : Search} (h : s.consumed ≤ f.unread.length) :
    (f.drop s).used = f.used + s.consumed := by
  simp only [used, drop, List.flatten_append, List.flatten_singleton, List.length_append,
    List.length_take, Nat.min_eq_left h]

theorem ahead_drop (f : Feed) {s : Search} (h : s.consumed ≤ f.unread.length) :
    (f.drop s).ahead = f.ahead.drop s.consumed := by
  simp only [ahead, drop, List.drop_append_of_le_length h]

/-- No byte is lost and none is used twice. -/
theorem stream_drop (f : Feed) (s : Search) :
    (f.drop s).taken.flatten ++ (f.drop s).ahead = f.taken.flatten ++ f.ahead := by
  simp only [ahead, drop, List.flatten_append, List.flatten_singleton, List.append_assoc]
  rw [← List.append_assoc (f.unread.take s.consumed), List.take_append_drop]

/-- One search, after which the caller stops. -/
theorem searched_drop {s whole : Search} (hs : s = f.deserializer.find interval matcher f.unread)
    (hanswer : s.answer = whole.answer) (hconsumed : s.consumed = whole.consumed)
    (hafter : s.after = whole.after) : Searched f whole (s.result, f.drop s) := by
  have hle : s.consumed ≤ f.unread.length := hs ▸ Deserializer.consumed_find_le ..
  refine ⟨Search.answer_eq_answer_iff.1 hanswer, ?_, ?_, stream_drop f s, hafter, ?_⟩
  · rw [used_drop f hle, hconsumed]
  · rw [ahead_drop f hle, hconsumed]
  · intro bytes hbytes
    rcases List.mem_append.1 hbytes with hbytes | hbytes
    · exact .inl hbytes
    · rw [List.mem_singleton.1 hbytes, hs]
      exact .inr (Deserializer.records_of_find f.deserializer interval matcher f.unread)

/-- A search behind one that asked for more bytes. -/
theorem Searched.trans {g f' : Feed} {s t whole : Search} {result : Result Match}
    {found : Result Match × Feed} (hs : Searched f s (result, f')) (ht : Searched g t found)
    (hahead : g.ahead = f'.ahead) (htaken : g.taken = f'.taken)
    (hwidth : g.deserializer.width = f.deserializer.width)
    (hanswer : whole.answer = t.answer) (hconsumed : whole.consumed = s.consumed + t.consumed)
    (hafter : whole.after = t.after) : Searched f whole found := by
  have hused : g.used = f'.used := by rw [Feed.used, Feed.used, htaken]
  refine ⟨?_, ?_, ?_, ?_, ?_, ?_⟩
  · exact ht.result.trans (Search.answer_eq_answer_iff.1 hanswer.symm)
  · rw [ht.used, hused, hs.used, hconsumed, Nat.add_assoc]
  · rw [ht.ahead, hahead, hs.ahead, List.drop_drop, hconsumed]
  · rw [ht.stream, htaken, hahead, hs.stream]
  · rw [ht.deserializer, hafter]
  · intro bytes hbytes
    rcases ht.records bytes hbytes with hbytes | hrecords
    · rw [htaken] at hbytes
      exact hs.records bytes hbytes
    · rw [hwidth] at hrecords
      exact .inr hrecords

/-- **A search in pieces** comes to what a search of all the bytes comes to. -/
theorem searched (f : Feed) (interval : Interval) (matcher : Matcher) :
    Searched f (f.deserializer.find interval matcher f.ahead) (f.search interval matcher) := by
  obtain ⟨d, unread, coming, taken⟩ := f
  induction coming generalizing d unread taken with
  | nil =>
    rw [search_of_nil rfl, ahead, List.flatten_nil, List.append_nil]
    exact searched_drop rfl rfl rfl rfl
  | cons piece coming ih =>
    have hsearched := searched_drop (f := ⟨d, unread, piece :: coming, taken⟩)
      (s := d.find interval matcher unread) rfl rfl rfl rfl
    by_cases hasks : AsksForMore (d.find interval matcher unread).result
    · obtain ⟨hanswer, hconsumed, hafter⟩ :=
        Deserializer.find_append_of_incomplete (piece ++ coming.flatten)
          (Search.answer_eq_incomplete_iff.2 hasks)
      rw [search_of_asksForMore hasks rfl]
      -- the next search is of the bytes that are left, with the next piece behind them
      rw [← List.append_assoc (unread.drop _)] at hanswer hconsumed hafter
      refine hsearched.trans (ih ..) ?_ rfl (Deserializer.width_find ..)
        hanswer hconsumed hafter
      simp only [ahead, drop, List.flatten_cons, List.append_assoc]
    · rw [search_of_settled hasks]
      -- more bytes do not change a search that is settled
      have hwhole : d.find interval matcher (unread ++ (piece :: coming).flatten) =
          d.find interval matcher unread :=
        Deserializer.find_append_of_settled _ (mt Search.answer_eq_incomplete_iff.1 hasks)
      rw [ahead, hwhole]
      exact hsearched

/-! ### Any searches one after another -/

/-- What is seen of a search from outside: the answer, how many bytes were used up to
    it, the running timestamp, and whether the end of the stream was met. -/
structure Reply where
  result : Result Match
  used : Nat
  running : Option Int64
  ended : Bool

/-- Replies that differ at most in how they ask for more bytes. -/
structure Reply.Agree (a b : Reply) : Prop where
  result : Deserializer.Agree a.result b.result
  used : a.used = b.used
  running : a.running = b.running
  ended : a.ended = b.ended

/-- Searches for one thing after another, each time from where the search before
    ended. -/
def serve (f : Feed) : List (Interval × List Query) → List Reply
  | [] => []
  | (interval, queries) :: rest =>
    let (result, f) := f.search interval (Matcher.ofQueries queries)
    ⟨result, f.used, f.deserializer.runningTimestamp?, f.deserializer.ended⟩ :: f.serve rest

/-- How bytes are cut into pieces changes no answer, then or later. -/
theorem serve_alike {f g : Feed} (hdeserializer : f.deserializer = g.deserializer)
    (hahead : f.ahead = g.ahead) (hused : f.used = g.used)
    (requests : List (Interval × List Query)) :
    List.Forall₂ Reply.Agree (f.serve requests) (g.serve requests) := by
  induction requests generalizing f g with
  | nil => exact .nil
  | cons request rest ih =>
    obtain ⟨interval, queries⟩ := request
    have hf := f.searched interval (Matcher.ofQueries queries)
    have hg := g.searched interval (Matcher.ofQueries queries)
    rw [hdeserializer, hahead] at hf
    have hafter := hf.deserializer.trans hg.deserializer.symm
    have hused' : (f.search interval (Matcher.ofQueries queries)).2.used =
        (g.search interval (Matcher.ofQueries queries)).2.used := by
      rw [hf.used, hg.used, hused]
    refine .cons ⟨hf.result.trans hg.result.symm, hused', ?_, ?_⟩ (ih hafter ?_ hused')
    · rw [hafter]
    · rw [hafter]
    · rw [hf.ahead, hg.ahead, hahead]

/-- **Searching a stream in pieces.**  However some bytes are cut into pieces, the
    caller's search finds the same event or meets the same end as one search of
    all the bytes, or both ask for more bytes.  Both use the same bytes and leave
    the same deserializer.  The searches of the caller use whole records, and all
    of them together use each byte once.  So whatever is searched for after that
    is found as if the bytes had been there from the start. -/
theorem search_pieces (d : Deserializer) (interval : Interval) (queries : List Query)
    (first : Bytes) (rest : List Bytes) :
    let whole := d.find interval (Matcher.ofQueries queries) (first ++ rest.flatten)
    let found := search interval (Matcher.ofQueries queries) ⟨d, first, rest, []⟩
    Agree found.1 whole.result ∧
      found.2.used = whole.consumed ∧
      found.2.deserializer = whole.after ∧
      found.2.taken.flatten ++ found.2.ahead = first ++ rest.flatten ∧
      (∀ bytes ∈ found.2.taken, Records d.width bytes) ∧
      ∀ requests, List.Forall₂ Reply.Agree (serve ⟨d, first, rest, []⟩ requests)
        (serve ⟨d, first ++ rest.flatten, [], []⟩ requests) := by
  intro whole found
  have hfound : Searched ⟨d, first, rest, []⟩ whole found :=
    searched ⟨d, first, rest, []⟩ interval (Matcher.ofQueries queries)
  refine ⟨hfound.result, ?_, hfound.deserializer, hfound.stream, ?_, fun requests => ?_⟩
  · rw [hfound.used]
    exact Nat.zero_add _
  · intro bytes hbytes
    exact (hfound.records bytes hbytes).resolve_left List.not_mem_nil
  · have hahead : ahead ⟨d, first, rest, []⟩ = ahead ⟨d, first ++ rest.flatten, [], []⟩ := by
      rw [ahead, ahead, List.flatten_nil, List.append_nil]
    exact serve_alike (f := ⟨d, first, rest, []⟩) (g := ⟨d, first ++ rest.flatten, [], []⟩)
      rfl hahead rfl requests

end Feed

end LogCodec
