import LogCodec.Proofs.Query.Language
import Mathlib.Data.List.Destutter

/-! # The normal form of a query

    The text of a query is cut into pieces: a backslash with the character behind it, a
    single character, or a backslash at the end.  Cleaning a query merges each run of `*`
    into one, leaves out the backslash at the end, and keeps all other pieces as they are,
    in order.  All that makes it a normal form follows from this.

    - `Query.pieces`: the pieces of a query.
    - `Query.pieces_clean`: what cleaning does to them.
    - `Query.NormalForm`: a text that is the normal form of a query.
    - `Query.normalForm_clean`: cleaning gives it. -/

namespace LogCodec.Query

/-! ### Pieces -/

/-- A piece of the text of a query. -/
inductive Piece where
  /-- A backslash and the character that it escapes. -/
  | escaped (c : Char)
  /-- A `*`. -/
  | any
  /-- A `?`. -/
  | one
  /-- Another character. -/
  | bare (c : Char)
  /-- A backslash that escapes nothing. -/
  | lone
deriving DecidableEq

namespace Piece

/-- What is written for a piece. -/
def text : Piece → List Char
  | escaped c => ['\\', c]
  | any => ['*']
  | one => ['?']
  | bare c => [c]
  | lone => ['\\']

/-- The piece that a character is, if it is no backslash. -/
def ofChar (c : Char) : Piece := if c = '*' then any else if c = '?' then one else bare c

/-- The two pieces are not both a `*`. -/
def Apart (a b : Piece) : Prop := a = any → b ≠ any

instance : DecidableRel Apart := fun a b => inferInstanceAs (Decidable (a = any → b ≠ any))

/-- Cleaning keeps these pieces as they are. -/
def isKept (p : Piece) : Bool := p ≠ any ∧ p ≠ lone

theorem ofChar_eq_any_iff {c : Char} : ofChar c = any ↔ c = '*' := by
  unfold ofChar
  split
  · simp [*]
  · split <;> simp [*]

theorem ofChar_ne_lone (c : Char) : ofChar c ≠ lone := by
  unfold ofChar
  split
  · simp
  · split <;> simp

end Piece

/-- The pieces of a query, from the left. -/
def pieces : List Char → List Piece
  | [] => []
  | '\\' :: [] => [.lone]
  | '\\' :: c :: rest => .escaped c :: pieces rest
  | '*' :: rest => .any :: pieces rest
  | '?' :: rest => .one :: pieces rest
  | c :: rest => .bare c :: pieces rest

/-- The query is its pieces, one behind the other. -/
theorem flatMap_text_pieces (query : List Char) : (pieces query).flatMap Piece.text = query := by
  fun_induction pieces query with
  | case1 | case2 => rfl
  | case3 c rest ih | case6 c rest _ _ _ _ ih =>
    rw [List.flatMap_cons, ih]
    rfl
  | case4 rest ih | case5 rest ih =>
    rw [List.flatMap_cons, ih]
    rfl

theorem pieces_cons {c : Char} (h : c ≠ '\\') (rest : List Char) :
    pieces (c :: rest) = .ofChar c :: pieces rest := by
  unfold Piece.ofChar
  split
  case isTrue hany =>
    subst hany
    rfl
  split
  case isTrue hone =>
    subst hone
    rfl
  case isFalse hany hone =>
    rw [pieces]
    · exact fun hc _ => h hc
    · exact fun _ _ hc _ => h hc
    · exact hany
    · exact hone

/-- The pieces of a query without the backslash at its end. -/
def stripped (query : List Char) : List Piece := (pieces query).filter (· ≠ .lone)

theorem stripped_cons {c : Char} (h : c ≠ '\\') (rest : List Char) :
    stripped (c :: rest) = .ofChar c :: stripped rest := by
  unfold stripped
  rw [pieces_cons h, List.filter_cons_of_pos (by simpa using Piece.ofChar_ne_lone c)]

/-- A `*` is at the front of the pieces only if it is at the front of the query. -/
theorem head?_stripped {query : List Char} (h : (stripped query).head? = some .any) :
    query.head? = some '*' := by
  unfold stripped at h
  fun_cases pieces query with
  | case1 | case2 | case3 | case5 | case6 => simp [pieces, *] at h
  | case4 => rfl

/-! ### Merging runs -/

section

variable {α : Type} {R : α → α → Prop} [DecidableRel R] {a b : α} {l : List α}

/-- An element that agrees with the next one is kept. -/
theorem destutter_cons_of_head (h : ∀ b ∈ l.head?, R a b) :
    (a :: l).destutter R = a :: l.destutter R := by
  cases l with
  | nil => rfl
  | cons b l => exact List.destutter'_cons_pos _ (h b rfl)

theorem destutter_cons_cons_of_not (h : ¬R a b) (l : List α) :
    (a :: b :: l).destutter R = (a :: l).destutter R :=
  List.destutter'_cons_neg _ h

section

variable {p : α → Bool} (h : ∀ a b, ¬R a b → p b = false)

include h

theorem filter_destutter' (a : α) (l : List α) :
    (l.destutter' R a).filter p = (a :: l).filter p := by
  induction l generalizing a with
  | nil => rfl
  | cons b l ih =>
    by_cases hab : R a b
    · rw [List.destutter'_cons_pos _ hab, List.filter_cons, ih b, ← List.filter_cons]
    · rw [List.destutter'_cons_neg _ hab, ih a]
      simp only [List.filter_cons, h a b hab, Bool.false_eq_true, if_false]

/-- A filter that takes nothing of what is left out takes the same of both lists. -/
theorem filter_destutter (l : List α) : (l.destutter R).filter p = l.filter p := by
  cases l with
  | nil => rfl
  | cons a l => exact filter_destutter' h a l

end

end

/-- **Cleaning** merges runs of `*`, and leaves out the backslash at the end. -/
theorem pieces_clean (query : List Char) :
    pieces (clean query) = (stripped query).destutter Piece.Apart := by
  fun_induction clean query with
  | case1 | case2 => rfl
  | case3 c rest ih =>
    have hnext : ∀ b ∈ (stripped rest).head?, Piece.Apart (.escaped c) b := by
      intro b _ hescaped
      cases hescaped
    show .escaped c :: pieces (clean rest) = (.escaped c :: stripped rest).destutter Piece.Apart
    rw [destutter_cons_of_head hnext, ih]
  | case4 rest ih =>
    rw [ih, stripped_cons (by decide), stripped_cons (by decide), stripped_cons (by decide)]
    exact (destutter_cons_cons_of_not (by decide) _).symm
  | case5 c rest hlone hescape hrun ih =>
    have hc := ne_escape hlone hescape
    have hnext : ∀ b ∈ (stripped rest).head?, Piece.Apart (.ofChar c) b := by
      intro b hb hany hb'
      -- otherwise the query has two `*` here
      subst hb'
      obtain ⟨rest', rfl⟩ := List.head?_eq_some_iff.1 (head?_stripped hb)
      exact hrun rest' (Piece.ofChar_eq_any_iff.1 hany) rfl
    rw [pieces_cons hc, stripped_cons hc, destutter_cons_of_head hnext, ih]

/-! ### Normal forms -/

/-- The second text is the normal form of the first one. -/
structure NormalForm (query normal : List Char) : Prop where
  /-- No two `*` stand side by side, unless one of them is escaped. -/
  separated : (pieces normal).IsChain Piece.Apart
  /-- There is no backslash at the end that escapes nothing. -/
  finished : .lone ∉ pieces normal
  /-- Cleaning changes it no more. -/
  stable : clean normal = normal
  /-- It stands for the same texts. -/
  denotes : ∀ (caseSensitive : Bool) (text : List Char),
    Denotes caseSensitive normal text ↔ Denotes caseSensitive query text
  /-- All other pieces are the same, in the same order. -/
  kept : (pieces normal).filter Piece.isKept = (pieces query).filter Piece.isKept
  /-- And there is one `*` for each run of them. -/
  merged : pieces normal = ((pieces query).filter (· ≠ .lone)).destutter Piece.Apart

/-- Pieces that are read from the left tell the text. -/
theorem eq_of_pieces_eq {query query' : List Char} (h : pieces query = pieces query') :
    query = query' := by
  rw [← flatMap_text_pieces query, h, flatMap_text_pieces]

theorem lone_not_mem_stripped (query : List Char) : .lone ∉ stripped query := by
  intro hmem
  simpa using (List.mem_filter.1 hmem).2

/-- **The normal form of a query.**  Whatever the query, cleaning it gives a text without two
    `*` side by side and without a backslash at the end that escapes nothing, which cleaning
    does not change any more.  It stands for the same texts, whether case matters or not.
    Its pieces are those of the query, with runs of `*` merged and the backslash at the end
    left out. -/
theorem normalForm_clean (query : List Char) : NormalForm query (clean query) := by
  have hpieces := pieces_clean query
  have hseparated : (pieces (clean query)).IsChain Piece.Apart := by
    rw [hpieces]
    exact List.isChain_destutter _ _
  have hfinished : .lone ∉ pieces (clean query) := by
    rw [hpieces]
    intro hmem
    exact lone_not_mem_stripped query ((List.destutter_sublist _ _).subset hmem)
  refine ⟨hseparated, hfinished, ?_, ?_, ?_, hpieces⟩
  · -- nothing is left to be merged or left out
    apply eq_of_pieces_eq
    have hstripped : stripped (clean query) = pieces (clean query) := by
      apply List.filter_eq_self.2
      intro piece hmem
      exact decide_eq_true (ne_of_mem_of_not_mem hmem hfinished)
    rw [pieces_clean (clean query), hstripped]
    exact List.destutter_of_isChain _ _ hseparated
  · intro caseSensitive text
    rw [← matches_tokens_iff, matches_clean_iff, matches_tokens_iff]
  · have hkept : ∀ a b : Piece, ¬a.Apart b → b.isKept = false := by
      intro a b hab
      have hb : b = .any := by
        by_contra hb
        exact hab fun _ => hb
      rw [hb]
      rfl
    rw [hpieces, filter_destutter hkept, stripped, List.filter_filter]
    congr 1
    funext piece
    cases piece <;> rfl

/-- An escaped `*`, a run of three, and a backslash at the end. -/
example : clean "\\****?\\".toList = "\\**?".toList := by decide +kernel

end LogCodec.Query
