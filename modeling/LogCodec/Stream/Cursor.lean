import LogCodec.Width

/-! # Cursors

    A cursor stands in a sequence of bytes.  Every read either takes exactly
    the bytes of its field and moves past them, or fails because there are too
    few; a failed read leaves the cursor where it is. -/

namespace LogCodec

/-- A place in a sequence of bytes. -/
structure Cursor where
  /-- The bytes not yet read. -/
  rest : Bytes
  /-- How many bytes were read. -/
  pos : Nat
deriving DecidableEq

namespace Cursor

/-- The cursor at the front of the bytes. -/
def ofBytes (bytes : Bytes) : Cursor := ⟨bytes, 0⟩

/-- How many bytes are left. -/
def remaining (c : Cursor) : Nat := c.rest.length

/-- The next `n` bytes. -/
def take? (c : Cursor) (n : Nat) : Option (Bytes × Cursor) :=
  (c.rest.splitExact? n).map fun (front, rest) => (front, ⟨rest, c.pos + n⟩)

/-- The next byte. -/
def byte? (c : Cursor) : Option (UInt8 × Cursor) :=
  match c.rest with
  | [] => none
  | b :: rest => some (b, ⟨rest, c.pos + 1⟩)

/-- The number in the next `n` bytes. -/
def word? (c : Cursor) (n : Nat) : Option (Nat × Cursor) :=
  (c.take? n).map fun (bytes, c) => (Word.ofBytes bytes, c)

/-- A signed 64-bit number. -/
def int64? (c : Cursor) : Option (Int64 × Cursor) :=
  (c.word? 8).map fun (value, c) => (Word.toInt64 value, c)

/-- Bytes of a length or count field. -/
def lengthSize : Nat := 4

/-- The greatest length or count. -/
def lengthMax : Nat := 0xFFFFFFFF

/-- A length and that many bytes. -/
def counted? (c : Cursor) : Option (Bytes × Cursor) := do
  let (length, c) ← c.word? lengthSize
  c.take? length

/-- `count` variables, one after another. -/
def splitVariables (w : Width) : (count : Nat) → Bytes → List (Variable w)
  | 0, _ => []
  | count + 1, bytes =>
    Variable.ofBytes (bytes.take w.size) :: splitVariables w count (bytes.drop w.size)

/-- A count and that many variables, put after those in `out`. -/
def variables? (c : Cursor) (w : Width) (out : List (Variable w)) :
    Option (List (Variable w) × Cursor) := do
  let (count, c) ← c.word? lengthSize
  (c.take? (count * w.size)).map fun (bytes, c) => (out ++ splitVariables w count bytes, c)

/-! ### Place and remainder

    A read moves the cursor forward, and what it passes and what is left add up
    to the same bytes. -/

/-- `c'` is reached from `c` by passing some bytes. -/
def Reaches (c c' : Cursor) : Prop :=
  c.pos ≤ c'.pos ∧ c'.pos + c'.rest.length = c.pos + c.rest.length

theorem Reaches.trans {a b c : Cursor} (h : Reaches a b) (h' : Reaches b c) : Reaches a c :=
  ⟨Nat.le_trans h.1 h'.1, h'.2.trans h.2⟩

theorem reaches_of_take? {c c' : Cursor} {n : Nat} {front : Bytes}
    (h : c.take? n = some (front, c')) : Reaches c c' := by
  simp only [take?, Option.map_eq_some_iff, Prod.exists, Prod.mk.injEq] at h
  obtain ⟨front', rest, hs, rfl, rfl⟩ := h
  obtain ⟨hb, hn⟩ := Bytes.splitExact?_eq_some_iff.1 hs
  constructor
  · simp
  · simp only [hb, List.length_append]
    omega

theorem reaches_of_byte? {c c' : Cursor} {b : UInt8} (h : c.byte? = some (b, c')) :
    Reaches c c' := by
  unfold byte? at h
  split at h
  · cases h
  · rename_i b' rest hr
    simp only [Option.some.injEq, Prod.mk.injEq] at h
    obtain ⟨-, rfl⟩ := h
    refine ⟨Nat.le_succ _, ?_⟩
    simp only [hr, List.length_cons]
    omega

theorem reaches_of_word? {c c' : Cursor} {n value : Nat}
    (h : c.word? n = some (value, c')) : Reaches c c' := by
  simp only [word?, Option.map_eq_some_iff, Prod.exists, Prod.mk.injEq] at h
  obtain ⟨_, _, ht, _, rfl⟩ := h
  exact reaches_of_take? ht

theorem reaches_of_int64? {c c' : Cursor} {value : Int64}
    (h : c.int64? = some (value, c')) : Reaches c c' := by
  simp only [int64?, Option.map_eq_some_iff, Prod.exists, Prod.mk.injEq] at h
  obtain ⟨_, _, ht, _, rfl⟩ := h
  exact reaches_of_word? ht

theorem reaches_of_counted? {c c' : Cursor} {bytes : Bytes}
    (h : c.counted? = some (bytes, c')) : Reaches c c' := by
  simp only [counted?, Option.bind_eq_bind, Option.bind_eq_some_iff, Prod.exists] at h
  obtain ⟨_, _, hw, ht⟩ := h
  exact (reaches_of_word? hw).trans (reaches_of_take? ht)

theorem reaches_of_variables? {c c' : Cursor} {w : Width} {out vars : List (Variable w)}
    (h : c.variables? w out = some (vars, c')) : Reaches c c' := by
  simp only [variables?, Option.bind_eq_bind, Option.bind_eq_some_iff, Option.map_eq_some_iff,
    Prod.exists, Prod.mk.injEq] at h
  obtain ⟨_, _, hw, _, _, ht, _, rfl⟩ := h
  exact (reaches_of_word? hw).trans (reaches_of_take? ht)

end Cursor

end LogCodec
