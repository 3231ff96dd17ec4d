import LogCodec.Proofs.Query.Glob
import LogCodec.Proofs.Reader.Requests
import LogCodec.Query.Search
import Mathlib.Data.List.Forall2

/-! # Queries that were read once

    A list of queries may be read once, for many messages, or again and again, one query and
    one message at a time.  Both ways lead to the same answers, and so do the searches that
    are built on them.

    - `Glob.Matcher.ofQueries_eq_ok_iff`: what reading a list of queries comes to.
    - `Glob.Matcher.matchesBy_getElem`: each pattern of a matcher says what its query says.
    - `Glob.Matcher.find?_eq_find?_ofQueries`: a matcher finds what the search for items finds.
    - `Glob.Matcher.Agrees`: a matcher that answers as its queries do, one after another.
    - `Glob.Matcher.agrees_ofQueries`: every list of queries has such a matcher. -/

namespace LogCodec

/-! ### Reading a list of queries -/

/-- A list is mapped when each of its items is. -/
theorem Result.mapM_eq_ok_iff {α β : Type} {f : α → Result β} {as : List α} {bs : List β} :
    as.mapM f = .ok bs ↔ List.Forall₂ (fun a b => f a = .ok b) as bs := by
  induction as generalizing bs with
  | nil => simp [pure, Except.pure, eq_comm]
  | cons a as ih =>
    rw [List.mapM_cons, List.forall₂_cons_left_iff, Result.bind_eq_ok_iff]
    constructor
    · intro h
      obtain ⟨b, hb, h⟩ := h
      obtain ⟨bs', hbs, h⟩ := Result.bind_eq_ok_iff.1 h
      cases h
      exact ⟨b, bs', hb, ih.1 hbs, rfl⟩
    · intro h
      obtain ⟨b, bs', hb, hbs, rfl⟩ := h
      exact ⟨b, hb, Result.bind_eq_ok_iff.2 ⟨bs', ih.2 hbs, rfl⟩⟩

namespace Glob.Matcher

variable {glob : Glob} {queries : List Query} {m : Matcher glob}

/-- The pattern is that of the query. -/
def Compiles (q : Query) (entry : glob.Pattern × Options) : Prop :=
  q.compileBy glob = .ok entry.1 ∧ entry.2 = q.options

/-- A matcher has a pattern for each of its queries, in order. -/
theorem ofQueries_eq_ok_iff :
    ofQueries glob queries = .ok m ↔ List.Forall₂ Compiles queries m.patterns := by
  have hcompiles (q : Query) (entry : glob.Pattern × Options) :
      (q.compileBy glob >>= fun pattern => pure (pattern, q.options)) = .ok entry ↔
        Compiles q entry := by
    rw [Result.bind_eq_ok_iff]
    constructor
    · intro h
      obtain ⟨pattern, hpattern, h⟩ := h
      cases h
      exact ⟨hpattern, rfl⟩
    · intro h
      obtain ⟨hpattern, hoptions⟩ := h
      exact ⟨entry.1, hpattern, by rw [← hoptions]; rfl⟩
  rw [ofQueries, Result.bind_eq_ok_iff]
  constructor
  · intro h
    obtain ⟨patterns, hpatterns, h⟩ := h
    cases h
    exact (Result.mapM_eq_ok_iff.1 hpatterns).imp fun q entry => (hcompiles q entry).1
  · intro h
    exact ⟨m.patterns, Result.mapM_eq_ok_iff.2 (h.imp fun q entry => (hcompiles q entry).2), rfl⟩

/-- A library that does what it documents reads every list of queries. -/
theorem exists_ofQueries (hglob : glob.Documented) (queries : List Query) :
    ∃ m : Matcher glob, ofQueries glob queries = .ok m := by
  induction queries with
  | nil => exact ⟨⟨[]⟩, ofQueries_eq_ok_iff.2 .nil⟩
  | cons q rest ih =>
    obtain ⟨m, hm⟩ := ih
    obtain ⟨pattern, hpattern, -⟩ := Query.exists_compileBy hglob q
    exact ⟨⟨(pattern, q.options) :: m.patterns⟩,
      ofQueries_eq_ok_iff.2 (.cons ⟨hpattern, rfl⟩ (ofQueries_eq_ok_iff.1 hm))⟩

/-! ### Finding the first query -/

theorem find?_eq_findIdx? (m : Matcher glob) (message : Bytes) :
    m.find? message = m.patterns.findIdx? fun entry =>
      glob.accepts entry.1 entry.2 (Utf8.lossy message) := by
  unfold find?
  split
  · rename_i hempty
    rw [List.isEmpty_iff.1 hempty]
    rfl
  · rfl

section

variable (h : ofQueries glob queries = .ok m)

include h

theorem length_patterns : m.patterns.length = queries.length :=
  (ofQueries_eq_ok_iff.1 h).length_eq.symm

/-- A query that is read for one message says the same as its pattern in the matcher. -/
theorem matchesBy_getElem {i : Nat} (hi : i < queries.length) (hi' : i < m.patterns.length)
    (message : Bytes) :
    queries[i].matchesBy glob message =
      .ok (glob.accepts m.patterns[i].1 m.patterns[i].2 (Utf8.lossy message)) := by
  obtain ⟨hpattern, hoptions⟩ : Compiles queries[i] m.patterns[i] :=
    (ofQueries_eq_ok_iff.1 h).get hi hi'
  rw [Query.matchesBy, hpattern, hoptions]
  rfl

/-- The first query that matches is found. -/
theorem find?_eq_some_iff (message : Bytes) (i : Nat) :
    m.find? message = some i ↔
      ∃ hi : i < queries.length, queries[i].matchesBy glob message = .ok true ∧
        ∀ (j : Nat) (hj : j < i), queries[j].matchesBy glob message = .ok false := by
  have hlength := length_patterns h
  rw [find?_eq_findIdx?, List.findIdx?_eq_some_iff_getElem]
  constructor
  · intro hfound
    obtain ⟨hi, haccepts, hbefore⟩ := hfound
    refine ⟨hlength ▸ hi, ?_, ?_⟩
    · rw [matchesBy_getElem h _ hi, haccepts]
    · intro j hj
      rw [matchesBy_getElem h _ (hj.trans hi)]
      simpa using hbefore j hj
  · intro hfound
    obtain ⟨hi, hmatches, hbefore⟩ := hfound
    have hi' : i < m.patterns.length := hlength.symm ▸ hi
    refine ⟨hi', ?_, ?_⟩
    · rw [matchesBy_getElem h hi hi'] at hmatches
      exact Except.ok.inj hmatches
    · intro j hj
      have hnot := hbefore j hj
      rw [matchesBy_getElem h _ (hj.trans hi')] at hnot
      simpa using hnot

/-- None is found when none matches. -/
theorem find?_eq_none_iff (message : Bytes) :
    m.find? message = none ↔ ∀ q ∈ queries, q.matchesBy glob message = .ok false := by
  have hlength := length_patterns h
  rw [find?_eq_findIdx?, List.findIdx?_eq_none_iff]
  constructor
  · intro hnone q hq
    obtain ⟨i, hi, rfl⟩ := List.mem_iff_getElem.1 hq
    rw [matchesBy_getElem h hi (hlength.symm ▸ hi),
      hnone _ (List.getElem_mem (hlength.symm ▸ hi))]
  · intro hnone entry hentry
    obtain ⟨i, hi, rfl⟩ := List.mem_iff_getElem.1 hentry
    have hnot := hnone _ (List.getElem_mem (hlength ▸ hi))
    rw [matchesBy_getElem h _ hi] at hnot
    exact Except.ok.inj hnot

end

/-- The matcher of a documented library finds what the search for items finds. -/
theorem find?_eq_find?_ofQueries (hglob : glob.Documented) (h : ofQueries glob queries = .ok m) :
    m.find? = (LogCodec.Matcher.ofQueries queries).find? := by
  funext message
  have hmatches (q : Query) (b : Bool) :
      q.matchesBy glob message = .ok b ↔ q.matchesMessage message = b := by
    rw [(Query.matchesBy_eq_ok hglob q message).1, Except.ok.injEq]
  rw [LogCodec.Matcher.find?_ofQueries]
  cases hfound : m.find? message with
  | none =>
    have hnone := (find?_eq_none_iff h message).1 hfound
    refine (List.findIdx?_eq_none_iff.2 ?_).symm
    intro q hq
    exact (hmatches q false).1 (hnone q hq)
  | some i =>
    obtain ⟨hi, hmatch, hbefore⟩ := (find?_eq_some_iff h message i).1 hfound
    refine (List.findIdx?_eq_some_iff_getElem.2 ⟨hi, (hmatches _ _).1 hmatch, ?_⟩).symm
    intro j hj
    simpa using (hmatches _ _).1 (hbefore j hj)

end Glob.Matcher

/-! ### Searching -/

namespace Glob.Matcher

variable {glob : Glob}

/-- The matcher answers as its queries do when they are read again for each message. -/
structure Agrees (queries : List Query) (m : Matcher glob) : Prop where
  /-- It finds the first query that matches. -/
  found : ∀ (message : Bytes) (i : Nat), m.find? message = some i ↔
    ∃ hi : i < queries.length, queries[i].matchesBy glob message = .ok true ∧
      ∀ (j : Nat) (hj : j < i), queries[j].matchesBy glob message = .ok false
  /-- It finds none when there is none. -/
  missed : ∀ message : Bytes, m.find? message = none ↔
    ∀ q ∈ queries, q.matchesBy glob message = .ok false
  /-- A search with it ends as one that reads the queries itself: with the same event or
      error, the same bytes used and the same deserializer. -/
  search : ∀ (d : Deserializer) (interval : Interval) (bytes : Bytes),
    d.findWith interval m bytes = Deserializer.findBy glob d interval queries bytes
  /-- And as one that looks for the items of the queries. -/
  items : ∀ (d : Deserializer) (interval : Interval) (bytes : Bytes),
    d.findWith interval m bytes = d.find interval (LogCodec.Matcher.ofQueries queries) bytes

/-- **Queries that were read once.**  Every list of queries can be read, whether case
    matters for them or not.  For every message the matcher then finds the first query that
    matches it, when each query is read and matched by itself, and none if there is none, as
    in an empty list.  So every search comes to the same with it. -/
theorem agrees_ofQueries (hglob : glob.Documented) (queries : List Query) :
    ∃ m : Matcher glob, ofQueries glob queries = .ok m ∧ m.Agrees queries := by
  obtain ⟨m, hm⟩ := exists_ofQueries hglob queries
  refine ⟨m, hm, find?_eq_some_iff hm, find?_eq_none_iff hm, ?_, ?_⟩
  · intro d interval bytes
    rw [Deserializer.findBy, hm]
  · intro d interval bytes
    rw [Deserializer.findWith, Deserializer.find, find?_eq_find?_ofQueries hglob hm]

/-- The first query differs from the message in case, the second one may. -/
theorem agrees_ofQueries_mixed :
    Glob.plain.Documented ∧
      ∃ m : Matcher Glob.plain, ofQueries Glob.plain [⟨"É*", true⟩, ⟨"?A[*", false⟩] = .ok m ∧
        m.find? [0xC3, 0x89, 0x62] = some 0 ∧ m.find? [0xFF, 0x61, 0x5B] = some 1 ∧
        m.find? [] = none := by
  obtain ⟨m, hm, hagrees⟩ := agrees_ofQueries plain_documented [⟨"É*", true⟩, ⟨"?A[*", false⟩]
  refine ⟨plain_documented, m, hm, ?_, ?_, ?_⟩
  · exact (hagrees.found _ 0).2 ⟨by decide, by decide +kernel, nofun⟩
  · have hfirst : (⟨"É*", true⟩ : Query).matchesBy plain [0xFF, 0x61, 0x5B] = .ok false := by
      decide +kernel
    refine (hagrees.found _ 1).2 ⟨by decide, by decide +kernel, ?_⟩
    intro j hj
    obtain rfl : j = 0 := Nat.lt_one_iff.1 hj
    exact hfirst
  · refine (hagrees.missed _).2 ?_
    decide +kernel

end Glob.Matcher

end LogCodec
