import LogCodec.Proofs.Stream.Word
import LogCodec.Stream.Cursor

/-! # Reads of a cursor

    A read looks only at the bytes that it passes.

    * `Cursor.Takes read bytes value`: in front of these bytes the read gives
      the value and passes them, whatever follows.
    * `Cursor.Exact read`: whenever the read succeeds, it takes the bytes that
      it passed in that sense.
    * `Cursor.Framed read`: and it fails only when there are too few bytes, so
      that it succeeds when the right ones follow.

    All are closed under reading one thing after another, so the formats of
    preambles and records inherit them from the single fields.

    What a read passed is the stored form of the value that it gave: no field
    has two stored forms. -/

namespace LogCodec.Cursor

/-- In front of these bytes the read gives the value and passes them. -/
def Takes {α : Type} (read : Cursor → Option (α × Cursor)) (bytes : Bytes) (value : α) : Prop :=
  ∀ (rest : Bytes) (pos : Nat), read ⟨bytes ++ rest, pos⟩ = some (value, ⟨rest, pos + bytes.length⟩)

/-- `c'` is reached from `c` by passing these bytes. -/
def Passes (c : Cursor) (bytes : Bytes) (c' : Cursor) : Prop :=
  c.rest = bytes ++ c'.rest ∧ c'.pos = c.pos + bytes.length

/-- A read depends on nothing but the bytes that it passes. -/
def Exact {α : Type} (read : Cursor → Option (α × Cursor)) : Prop :=
  ∀ (c c' : Cursor) (value : α), read c = some (value, c') →
    ∃ bytes, c.Passes bytes c' ∧ Takes read bytes value

/-- An exact read that fails only for too few bytes: with some bytes more it gives
    a value. -/
structure Framed {α : Type} (read : Cursor → Option (α × Cursor)) : Prop where
  exact : Exact read
  completable : ∀ c, read c = none →
    ∃ more value, more ≠ [] ∧ Takes read (c.rest ++ more) value

/-- The cursor with more bytes behind those that are left. -/
def extend (c : Cursor) (more : Bytes) : Cursor := ⟨c.rest ++ more, c.pos⟩

theorem Passes.trans {c₁ c₂ c₃ : Cursor} {a b : Bytes} (h : c₁.Passes a c₂) (h' : c₂.Passes b c₃) :
    c₁.Passes (a ++ b) c₃ := by
  constructor
  · rw [h.1, h'.1, List.append_assoc]
  · rw [h'.2, h.2, List.length_append, Nat.add_assoc]

/-! ### One read after another -/

section

variable {α β : Type} {read : Cursor → Option (α × Cursor)}
  {next : α × Cursor → Option (β × Cursor)}

theorem Takes.bind {a b : Bytes} {x : α} {y : β} (h : Takes read a x)
    (h' : Takes (fun c => next (x, c)) b y) :
    Takes (fun c => (read c).bind next) (a ++ b) y := by
  intro rest pos
  simp only [List.append_assoc, h (b ++ rest) pos, Option.bind_some, h' rest (pos + a.length),
    List.length_append, Nat.add_assoc]

theorem Takes.map {a : Bytes} {x : α} (h : Takes read a x) (f : α → β) :
    Takes (fun c => (read c).map fun p => (f p.1, p.2)) a (f x) := by
  intro rest pos
  simp only [h rest pos, Option.map_some]

/-- A read that succeeded gives the same value when more bytes follow. -/
theorem Exact.extend (h : Exact read) {c c' : Cursor} {x : α} (hr : read c = some (x, c'))
    (more : Bytes) : read (c.extend more) = some (x, c'.extend more) := by
  obtain ⟨bytes, ⟨hrest, hpos⟩, htakes⟩ := h _ _ _ hr
  have := htakes (c'.rest ++ more) c.pos
  rwa [← List.append_assoc, ← hrest, ← hpos] at this

theorem Exact.bind (h : Exact read) (h' : ∀ x, Exact fun c => next (x, c)) :
    Exact fun c => (read c).bind next := by
  intro c c' y hr
  obtain ⟨⟨x, d⟩, hx, hy⟩ := Option.bind_eq_some_iff.1 hr
  obtain ⟨a, hpass, htakes⟩ := h _ _ _ hx
  obtain ⟨b, hpass', htakes'⟩ := h' x _ _ _ hy
  exact ⟨a ++ b, hpass.trans hpass', htakes.bind htakes'⟩

theorem Exact.map (h : Exact read) (f : α → β) :
    Exact fun c => (read c).map fun p => (f p.1, p.2) := by
  intro c c' y hr
  obtain ⟨⟨x, d⟩, hx, hxy⟩ := Option.map_eq_some_iff.1 hr
  obtain ⟨rfl, rfl⟩ := Prod.mk.inj hxy
  obtain ⟨a, hpass, htakes⟩ := h _ _ _ hx
  exact ⟨a, hpass, htakes.map f⟩

/-- There are bytes that the read takes. -/
theorem Framed.exists_takes (h : Framed read) : ∃ bytes value, Takes read bytes value := by
  cases hread : read ⟨[], 0⟩ with
  | none =>
    obtain ⟨more, value, -, htakes⟩ := h.completable _ hread
    exact ⟨more, value, htakes⟩
  | some found =>
    obtain ⟨bytes, -, htakes⟩ := h.exact _ _ _ hread
    exact ⟨bytes, _, htakes⟩

theorem Framed.bind (h : Framed read) (h' : ∀ x, Framed fun c => next (x, c)) :
    Framed fun c => (read c).bind next := by
  refine ⟨h.exact.bind fun x => (h' x).exact, fun c hnone => ?_⟩
  cases hread : read c with
  | none =>
    -- the first read lacks bytes: those that it lacks, and some for the second
    obtain ⟨more, x, hmore, htakes⟩ := h.completable c hread
    obtain ⟨bytes, y, htakes'⟩ := (h' x).exists_takes
    refine ⟨more ++ bytes, y, List.append_ne_nil_of_left_ne_nil hmore bytes, ?_⟩
    rw [← List.append_assoc]
    exact htakes.bind htakes'
  | some found =>
    obtain ⟨x, d⟩ := found
    obtain ⟨bytes, ⟨hrest, -⟩, htakes⟩ := h.exact _ _ _ hread
    rw [hread, Option.bind_some] at hnone
    obtain ⟨more, y, hmore, htakes'⟩ := (h' x).completable d hnone
    refine ⟨more, y, hmore, ?_⟩
    rw [hrest, List.append_assoc]
    exact htakes.bind htakes'

theorem Framed.map (h : Framed read) (f : α → β) :
    Framed fun c => (read c).map fun p => (f p.1, p.2) := by
  refine ⟨h.exact.map f, fun c hnone => ?_⟩
  obtain ⟨more, x, hmore, htakes⟩ := h.completable c (Option.map_eq_none_iff.1 hnone)
  exact ⟨more, f x, hmore, htakes.map f⟩

end

theorem takes_pure {α : Type} (value : α) : Takes (fun c => some (value, c)) [] value :=
  fun _ _ => rfl

theorem framed_pure {α : Type} (value : α) : Framed fun c => some (value, c) := by
  refine ⟨fun c c' x h => ?_, fun c h => ?_⟩
  · cases h
    exact ⟨[], ⟨rfl, rfl⟩, takes_pure value⟩
  · cases h

/-! ### Single fields -/

theorem takes_byte? (b : UInt8) : Takes byte? [b] b := fun _ _ => rfl

theorem exact_byte? : Exact byte? := by
  intro c c' b h
  unfold byte? at h
  split at h
  · cases h
  · rename_i b' rest hrest
    cases h
    exact ⟨[b], ⟨hrest, rfl⟩, takes_byte? b⟩

theorem takes_take? (bytes : Bytes) : Takes (take? · bytes.length) bytes bytes := by
  intro rest pos
  simp only [take?, (Bytes.splitExact?_eq_some_iff.2 ⟨rfl, rfl⟩ :
    (bytes ++ rest).splitExact? bytes.length = some (bytes, rest)), Option.map_some]

theorem passes_take? {c c' : Cursor} {n : Nat} {bytes : Bytes}
    (h : c.take? n = some (bytes, c')) : c.Passes bytes c' ∧ bytes.length = n := by
  simp only [take?, Option.map_eq_some_iff, Prod.exists, Prod.mk.injEq] at h
  obtain ⟨front, rest, hs, rfl, rfl⟩ := h
  obtain ⟨hrest, rfl⟩ := Bytes.splitExact?_eq_some_iff.1 hs
  exact ⟨⟨hrest, rfl⟩, rfl⟩

theorem framed_take? (n : Nat) : Framed (take? · n) := by
  refine ⟨fun c c' bytes h => ?_, fun c h => ?_⟩
  · obtain ⟨hpass, rfl⟩ := passes_take? h
    exact ⟨bytes, hpass, takes_take? bytes⟩
  · have hshort := Bytes.splitExact?_eq_none_iff.1 (Option.map_eq_none_iff.1 h)
    have htakes := takes_take? (c.rest ++ List.replicate (n - c.rest.length) 0)
    have hlength : (c.rest ++ List.replicate (n - c.rest.length) 0).length = n := by
      rw [List.length_append, List.length_replicate]
      omega
    rw [hlength] at htakes
    refine ⟨_, _, ?_, htakes⟩
    rw [Ne, List.replicate_eq_nil_iff]
    omega

theorem takes_word? (bytes : Bytes) : Takes (word? · bytes.length) bytes (Word.ofBytes bytes) :=
  (takes_take? bytes).map Word.ofBytes

theorem framed_word? (n : Nat) : Framed (word? · n) := (framed_take? n).map Word.ofBytes

/-- A word is read as it was written. -/
theorem takes_word?_toBytes {n value : Nat} (h : value < 256 ^ n) :
    Takes (word? · n) (Word.toBytes n value) value := by
  have := takes_word? (Word.toBytes n value)
  rwa [Word.length_toBytes, Word.ofBytes_toBytes_of_lt h] at this

theorem takes_int64? (value : Int64) : Takes int64? (Word.ofInt64 value) value := by
  have := (takes_word? (Word.ofInt64 value)).map Word.toInt64
  rwa [Word.length_ofInt64, Word.toInt64_ofInt64] at this

theorem framed_int64? : Framed int64? := (framed_word? 8).map Word.toInt64

/-- The stored form of a length. -/
theorem takes_length {length : Nat} (h : length ≤ lengthMax) :
    Takes (word? · lengthSize) (Word.toBytes lengthSize length) length :=
  takes_word?_toBytes (Nat.lt_succ_of_le h)

theorem takes_counted? {bytes : Bytes} (h : bytes.length ≤ lengthMax) :
    Takes counted? (Word.toBytes lengthSize bytes.length ++ bytes) bytes :=
  (takes_length h).bind (takes_take? bytes)

theorem framed_counted? : Framed counted? :=
  (framed_word? lengthSize).bind framed_take?

/-! ### Lists of variables -/

theorem length_flatMap_toBytes {w : Width} (vars : List (Variable w)) :
    (vars.flatMap Variable.toBytes).length = vars.length * w.size := by
  simp [List.length_flatMap, List.map_const']

/-- Variables are read as they were written. -/
theorem splitVariables_flatMap {w : Width} (vars : List (Variable w)) :
    splitVariables w vars.length (vars.flatMap Variable.toBytes) = vars := by
  induction vars with
  | nil => rfl
  | cons v vars ih =>
    rw [List.length_cons, List.flatMap_cons, splitVariables]
    rw [List.take_left' (Variable.length_toBytes v), List.drop_left' (Variable.length_toBytes v),
      Variable.ofBytes_toBytes, ih]

theorem takes_variables? {w : Width} (out : List (Variable w)) {vars : List (Variable w)}
    (h : vars.length ≤ lengthMax) :
    Takes (variables? · w out)
      (Word.toBytes lengthSize vars.length ++ vars.flatMap Variable.toBytes) (out ++ vars) := by
  have hbytes := takes_take? (vars.flatMap Variable.toBytes)
  rw [length_flatMap_toBytes] at hbytes
  have hvars := hbytes.map fun bytes => out ++ splitVariables w vars.length bytes
  rw [splitVariables_flatMap] at hvars
  exact (takes_length h).bind hvars

theorem framed_variables? (w : Width) (out : List (Variable w)) : Framed (variables? · w out) :=
  (framed_word? lengthSize).bind fun count =>
    (framed_take? (count * w.size)).map fun bytes => out ++ splitVariables w count bytes

/-! ### Stored forms -/

section

variable {c c' : Cursor}

theorem passes_word? {n value : Nat} (h : c.word? n = some (value, c')) :
    c.Passes (Word.toBytes n value) c' ∧ value < 256 ^ n := by
  simp only [word?, Option.map_eq_some_iff, Prod.exists, Prod.mk.injEq] at h
  obtain ⟨bytes, _, ht, rfl, rfl⟩ := h
  obtain ⟨hpass, rfl⟩ := passes_take? ht
  rw [Word.toBytes_ofBytes]
  exact ⟨hpass, Word.ofBytes_lt bytes⟩

theorem passes_int64? {value : Int64} (h : c.int64? = some (value, c')) :
    c.Passes (Word.ofInt64 value) c' := by
  simp only [int64?, word?, Option.map_map, Option.map_eq_some_iff, Prod.exists,
    Function.comp_apply, Prod.mk.injEq] at h
  obtain ⟨bytes, _, ht, rfl, rfl⟩ := h
  obtain ⟨hpass, hlength⟩ := passes_take? ht
  rwa [Word.ofInt64_toInt64 hlength]

/-- The stored form of a length, which fits into its field. -/
theorem passes_length {length : Nat} (h : c.word? lengthSize = some (length, c')) :
    c.Passes (Word.toBytes lengthSize length) c' ∧ length ≤ lengthMax := by
  obtain ⟨hpass, hlt⟩ := passes_word? h
  exact ⟨hpass, Nat.le_of_lt_succ hlt⟩

theorem passes_counted? {bytes : Bytes} (h : c.counted? = some (bytes, c')) :
    c.Passes (Word.toBytes lengthSize bytes.length ++ bytes) c' ∧ bytes.length ≤ lengthMax := by
  obtain ⟨⟨length, d⟩, hlength, htake⟩ := Option.bind_eq_some_iff.1 h
  obtain ⟨hfront, hfits⟩ := passes_length hlength
  obtain ⟨hbytes, rfl⟩ := passes_take? htake
  exact ⟨hfront.trans hbytes, hfits⟩

/-- Variables are written as they were read. -/
theorem flatMap_splitVariables {w : Width} {count : Nat} {bytes : Bytes}
    (h : bytes.length = count * w.size) :
    (splitVariables w count bytes).flatMap Variable.toBytes = bytes ∧
      (splitVariables w count bytes).length = count := by
  induction count generalizing bytes with
  | zero =>
    rw [Nat.zero_mul, List.length_eq_zero_iff] at h
    rw [h]
    exact ⟨rfl, rfl⟩
  | succ count ih =>
    rw [Nat.succ_mul] at h
    obtain ⟨hrest, hlength⟩ := @ih (bytes.drop w.size) (by rw [List.length_drop]; omega)
    have hfirst : (bytes.take w.size).length = w.size := by
      rw [List.length_take]
      omega
    rw [splitVariables, List.flatMap_cons, hrest, Variable.toBytes_ofBytes hfirst,
      List.take_append_drop, List.length_cons, hlength]
    exact ⟨rfl, rfl⟩

theorem passes_variables? {w : Width} {vars : List (Variable w)}
    (h : c.variables? w [] = some (vars, c')) :
    c.Passes (Word.toBytes lengthSize vars.length ++ vars.flatMap Variable.toBytes) c' ∧
      vars.length ≤ lengthMax := by
  obtain ⟨⟨count, d⟩, hcount, hvars⟩ := Option.bind_eq_some_iff.1 h
  obtain ⟨⟨bytes, e⟩, htake, hsplit⟩ := Option.map_eq_some_iff.1 hvars
  obtain ⟨rfl, rfl⟩ := Prod.mk.inj hsplit
  obtain ⟨hfront, hfits⟩ := passes_length hcount
  obtain ⟨hbytes, hlength⟩ := passes_take? htake
  obtain ⟨hflat, hcount⟩ := flatMap_splitVariables hlength
  rw [List.nil_append, hflat, hcount]
  exact ⟨hfront.trans hbytes, hfits⟩

end

end LogCodec.Cursor
