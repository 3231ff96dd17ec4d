import LogCodec.Proofs.Stream.Cursor
import LogCodec.Proofs.Stream.Metadata
import LogCodec.Stream.Deserializer

/-! # Preambles are read as they were written

    - `frame`: a preamble around its metadata, and `readParts`: what is read of it before
      the metadata is looked at.
    - `ofBytes_toBytes_append`: a preamble that was written is read, whatever
      follows it.
    - `ofBytes_append`: what was made out of some bytes stays the same when more
      bytes follow.  Only the bytes that are reported in place of the magic
      number may change, since as many of them are reported as there are.
    - `ofBytes_of_cut`: a part of a frame is incomplete, whatever its metadata is.
    - `opens_as_written`: all of this for the deserializer that a preamble opens. -/

namespace LogCodec

/-! ### Errors up to the bytes of a bad magic number -/

/-- The error without the bytes that were found in place of the magic number. -/
def Error.withoutMagic : Error → Error
  | .corrupted (.badMagic _) => .corrupted (.badMagic [])
  | e => e

/-- The same value, or the same error up to the bytes of a bad magic number. -/
def Result.Alike {α : Type} (x y : Result α) : Prop :=
  x.mapError Error.withoutMagic = y.mapError Error.withoutMagic

namespace Result

variable {α β : Type}

theorem Alike.refl (x : Result α) : Alike x x := rfl

theorem alike_ok_iff {x : Result α} {a : α} : Alike x (.ok a) ↔ x = .ok a := by
  cases x <;> simp [Alike, Except.mapError]

theorem alike_error_iff {x : Result α} {e : Error} :
    Alike x (.error e) ↔ ∃ e', x = .error e' ∧ e'.withoutMagic = e.withoutMagic := by
  cases x <;> simp [Alike, Except.mapError]

theorem Alike.map {x y : Result α} (h : Alike x y) (f : α → β) : Alike (x.map f) (y.map f) := by
  cases y with
  | ok a => rw [alike_ok_iff.1 h]; exact .refl _
  | error e =>
    obtain ⟨e', rfl, he⟩ := alike_error_iff.1 h
    exact alike_error_iff.2 ⟨e', rfl, he⟩

end Result

namespace Preamble

/-! ### The parts of a preamble -/

/-- A preamble around its metadata. -/
def frame (w : Width) (metadata : Bytes) : Bytes :=
  magic ++ w.toByte :: jsonKind :: (Word.toBytes 2 metadata.length ++ metadata)

theorem length_frame (w : Width) (metadata : Bytes) :
    (frame w metadata).length = 8 + metadata.length := by
  have hmagic : magic.length = 4 := rfl
  rw [frame, List.length_append, List.length_cons, List.length_cons, List.length_append,
    Word.length_toBytes, hmagic]
  omega

/-- The fields of a preamble, before its metadata is looked at. -/
def readParts (c : Cursor) : Result ((Width × Bytes) × Cursor) := do
  let (_, c) ← readMagic c
  let (width, c) ← readWidth c
  let (_, c) ← readKind c
  let (metadata, c) ← readMetadata c
  return ((width, metadata), c)

theorem read_eq_bind (c : Cursor) :
    read c = readParts c >>= fun found =>
      (ofMetadata found.1.1 found.1.2).map fun p => (p, found.2) := by
  simp only [read, readParts, bind_assoc, pure_bind]
  rfl

/-! ### Reading what was written -/

theorem toBytes_eq_ok_iff {p : Preamble} {bytes : Bytes} :
    p.toBytes = .ok bytes ↔ p.metadata.length ≤ metadataMax ∧
      magic ++ p.width.toByte :: jsonKind ::
        (Word.toBytes 2 p.metadata.length ++ p.metadata) = bytes := by
  simp only [toBytes]
  split <;> simp [*]

theorem readMagic_eq_need {c : Cursor} (h : (c.rest.take magic.length).isPrefixOf magic = true) :
    readMagic c = need (c.take? magic.length) :=
  if_pos h

theorem readMagic_eq_error {c : Cursor}
    (h : ¬ (c.rest.take magic.length).isPrefixOf magic = true) :
    readMagic c = .error (.corrupted (.badMagic (c.rest.take magic.length))) :=
  if_neg h

theorem readMagic_magic_append (rest : Bytes) (pos : Nat) :
    readMagic ⟨magic ++ rest, pos⟩ = .ok (magic, ⟨rest, pos + magic.length⟩) := by
  rw [readMagic_eq_need (by rw [List.take_left]; decide)]
  exact congrArg need (Cursor.takes_take? magic rest pos)

theorem readWidth_toByte (width : Width) (rest : Bytes) (pos : Nat) :
    readWidth ⟨width.toByte :: rest, pos⟩ = .ok (width, ⟨rest, pos + 1⟩) := by
  cases width <;> rfl

theorem readMetadata_append {metadata : Bytes} (h : metadata.length ≤ metadataMax) (rest : Bytes)
    (pos : Nat) :
    readMetadata ⟨Word.toBytes 2 metadata.length ++ (metadata ++ rest), pos⟩ =
      .ok (metadata, ⟨rest, pos + 2 + metadata.length⟩) := by
  have hlength : metadata.length < 256 ^ 2 := Nat.lt_succ_of_le h
  have hword := Cursor.takes_word?_toBytes hlength (metadata ++ rest) pos
  rw [Word.length_toBytes] at hword
  simp only [readMetadata, hword]
  exact congrArg need (Cursor.takes_take? metadata rest (pos + 2))

theorem readKind_jsonKind (rest : Bytes) (pos : Nat) :
    readKind ⟨jsonKind :: rest, pos⟩ = .ok (jsonKind, ⟨rest, pos + 1⟩) :=
  rfl

section

variable {w : Width} {metadata bytes : Bytes}

/-- The fields of a preamble are read one after another. -/
theorem readParts_frame_append (h : metadata.length ≤ metadataMax) (rest : Bytes) :
    readParts ⟨frame w metadata ++ rest, 0⟩ =
      .ok ((w, metadata), ⟨rest, 8 + metadata.length⟩) := by
  have hpos : 0 + magic.length + 1 + 1 + 2 + metadata.length = 8 + metadata.length := by
    have hmagic : magic.length = 4 := rfl
    omega
  simp only [readParts, frame, List.append_assoc, List.cons_append, readMagic_magic_append,
    readWidth_toByte, readKind_jsonKind, readMetadata_append h, bind, Except.bind, pure,
    Except.pure, hpos]

theorem ofBytes_frame_append (h : metadata.length ≤ metadataMax) (rest : Bytes) :
    ofBytes (frame w metadata ++ rest) =
      (ofMetadata w metadata).map fun p => (p, 8 + metadata.length) := by
  rw [ofBytes, read_eq_bind, Cursor.ofBytes, readParts_frame_append h]
  cases hm : ofMetadata w metadata <;> simp [bind, Except.bind, hm, Except.map]

end

/-- A preamble that was written is read, whatever follows it. -/
theorem ofBytes_toBytes_append {p : Preamble} {bytes : Bytes} (h : p.toBytes = .ok bytes)
    (rest : Bytes) : ofBytes (bytes ++ rest) = .ok (p.kept, bytes.length) := by
  obtain ⟨hfits, rfl⟩ := toBytes_eq_ok_iff.1 h
  have hread := ofBytes_frame_append (w := p.width) hfits rest
  rw [ofMetadata_metadata] at hread
  rw [← frame, hread, length_frame]
  rfl

/-! ### More bytes -/

/-- What a read says of some bytes, it says when more bytes follow, unless they
    were too few. -/
def Stable {α : Type} (read : Cursor → Result (α × Cursor)) : Prop :=
  ∀ (c : Cursor) (more : Bytes), read c ≠ .error .incomplete →
    Result.Alike (read (c.extend more)) ((read c).map fun found => (found.1, found.2.extend more))

section

variable {α β : Type} {read : Cursor → Result (α × Cursor)}
  {next : α × Cursor → Result (β × Cursor)}

theorem Stable.bind (h : Stable read) (h' : ∀ x, Stable fun c => next (x, c)) :
    Stable fun c => read c >>= next := by
  intro c more hne
  have hread := h c more
  dsimp only at hne ⊢
  cases hc : read c with
  | error e =>
    -- the second read is not reached, whatever follows
    rw [hc] at hne hread
    obtain ⟨e', hext, he'⟩ := Result.alike_error_iff.1 (hread fun he => hne (by rw [he]; rfl))
    rw [hext]
    exact Result.alike_error_iff.2 ⟨e', rfl, he'⟩
  | ok found =>
    obtain ⟨x, d⟩ := found
    rw [hc] at hne hread
    rw [Result.alike_ok_iff.1 (hread (by simp))]
    exact h' x d more hne

theorem stable_need {read : Cursor → Option (α × Cursor)} (h : Cursor.Exact read) :
    Stable fun c => need (read c) := by
  intro c more hne
  dsimp only at hne ⊢
  cases hc : read c with
  | none => exact absurd (by rw [hc]; rfl) hne
  | some found =>
    obtain ⟨x, d⟩ := found
    rw [h.extend hc more]
    exact .refl _

/-- A result that was there before the read. -/
theorem stable_const (result : Result α) : Stable fun c => result.map (·, c) := by
  intro c more _
  cases result <;> exact .refl _

end

theorem stable_readMagic : Stable readMagic := by
  intro c more hne
  by_cases hprefix : (c.rest.take magic.length).isPrefixOf magic = true
  · rw [readMagic_eq_need hprefix] at hne ⊢
    -- all of the magic number is there, or there would be too few bytes
    have hlong : magic.length ≤ c.rest.length := by
      by_contra hshort
      apply hne
      rw [Cursor.take?, Bytes.splitExact?_eq_none_iff.2 (by omega)]
      rfl
    have hprefix' : ((c.extend more).rest.take magic.length).isPrefixOf magic = true := by
      rwa [Cursor.extend, List.take_append_of_le_length hlong]
    rw [readMagic_eq_need hprefix']
    exact stable_need (Cursor.framed_take? magic.length).exact c more hne
  · -- more bytes do not make a wrong byte right
    have hprefix' : ¬ ((c.extend more).rest.take magic.length).isPrefixOf magic = true := by
      intro h
      apply hprefix
      rw [List.isPrefixOf_iff_prefix] at h ⊢
      refine List.IsPrefix.trans (List.prefix_take_iff.2 ⟨?_, List.length_take_le ..⟩) h
      exact (List.take_prefix ..).trans (List.prefix_append ..)
    rw [readMagic_eq_error hprefix, readMagic_eq_error hprefix']
    exact Result.alike_error_iff.2 ⟨_, rfl, rfl⟩

theorem stable_readWidth : Stable readWidth :=
  (stable_need Cursor.exact_byte?).bind fun byte => by
    cases h : Width.ofByte? byte with
    | some width => simpa only [h, Except.map] using stable_const (.ok width)
    | none => simpa only [h, Except.map] using stable_const (.error (.corrupted (.badWidth byte)))

theorem stable_readKind : Stable readKind :=
  (stable_need Cursor.exact_byte?).bind fun kind => by
    by_cases h : kind = jsonKind
    · simpa only [if_pos h, Except.map] using stable_const (.ok kind)
    · simpa only [if_neg h, Except.map] using stable_const (.error (.unsupportedMetadata kind))

theorem stable_readMetadata : Stable readMetadata :=
  (stable_need (Cursor.framed_word? 2).exact).bind fun length =>
    stable_need (Cursor.framed_take? length).exact

theorem stable_readParts : Stable readParts :=
  stable_readMagic.bind fun _ =>
    stable_readWidth.bind fun width =>
    stable_readKind.bind fun _ =>
    stable_readMetadata.bind fun metadata => stable_const (.ok (width, metadata))

theorem stable_read : Stable read := by
  rw [funext read_eq_bind]
  exact stable_readParts.bind fun found => stable_const (ofMetadata found.1 found.2)

/-- More bytes do not change what was made out. -/
theorem ofBytes_append {bytes : Bytes} (h : ofBytes bytes ≠ .error .incomplete) (more : Bytes) :
    Result.Alike (ofBytes (bytes ++ more)) (ofBytes bytes) := by
  have hne : read (Cursor.ofBytes bytes) ≠ .error .incomplete := by
    intro hread
    exact h (by rw [ofBytes, hread]; rfl)
  have hread := (stable_read (Cursor.ofBytes bytes) more hne).map fun found => (found.1, found.2.pos)
  rw [ofBytes, ofBytes]
  cases hc : read (Cursor.ofBytes bytes) with
  | error e => rwa [hc] at hread
  | ok found => rwa [hc] at hread

section

variable {w : Width} {metadata bytes : Bytes}

theorem ofBytes_of_readParts {e : Error} (h : readParts (Cursor.ofBytes bytes) = .error e) :
    ofBytes bytes = .error e := by
  rw [ofBytes, read_eq_bind, h]
  rfl

/-- A part of a frame is incomplete. -/
theorem ofBytes_of_cut (h : metadata.length ≤ metadataMax) (hcut : bytes <+: frame w metadata)
    (hne : bytes ≠ frame w metadata) : ofBytes bytes = .error .incomplete := by
  apply ofBytes_of_readParts
  by_contra hsettled
  obtain ⟨more, hmore⟩ := hcut
  -- what is read of the part is read of the frame, and nothing is left behind that
  have halike := stable_readParts (Cursor.ofBytes bytes) more hsettled
  have hframe := readParts_frame_append (w := w) h []
  rw [List.append_nil, ← hmore] at hframe
  have hextend : (Cursor.ofBytes bytes).extend more = ⟨bytes ++ more, 0⟩ := rfl
  rw [hextend, hframe] at halike
  cases hread : readParts (Cursor.ofBytes bytes) with
  | error e =>
    rw [hread] at halike
    obtain ⟨_, he, -⟩ := Result.alike_error_iff.1 halike
    cases he
  | ok found =>
    rw [hread] at halike
    obtain ⟨-, hcursor⟩ := Prod.mk.inj (Except.ok.inj (Result.alike_ok_iff.1 halike))
    have hrest : [] = found.2.rest ++ more := congrArg Cursor.rest hcursor
    obtain ⟨-, rfl⟩ := List.append_eq_nil_iff.1 hrest.symm
    rw [List.append_nil] at hmore
    exact hne hmore

end

/-! ### What a preamble opens -/

/-- A preamble that was written has its metadata behind eight bytes, of which the
    last two are the length of the metadata. -/
theorem layout_of_toBytes {p : Preamble} {bytes : Bytes} (h : p.toBytes = .ok bytes) :
    bytes.length = 8 + p.metadata.length ∧
      Word.ofBytes ((bytes.drop 6).take 2) = p.metadata.length ∧ bytes.drop 8 = p.metadata := by
  obtain ⟨hfits, hbytes⟩ := toBytes_eq_ok_iff.1 h
  have hlength : p.metadata.length < 256 ^ 2 := Nat.lt_succ_of_le hfits
  have hsplit : bytes = (magic ++ [p.width.toByte, jsonKind]) ++
      (Word.toBytes 2 p.metadata.length ++ p.metadata) := by
    rw [← hbytes, List.append_assoc]
    rfl
  have hsix : (magic ++ [p.width.toByte, jsonKind]).length = 6 := rfl
  have hfront : bytes.drop 6 = Word.toBytes 2 p.metadata.length ++ p.metadata := by
    rw [hsplit]
    exact List.drop_left' hsix
  have hback : bytes.drop 8 = p.metadata := by
    rw [show 8 = 6 + 2 from rfl, ← List.drop_drop, hfront]
    exact List.drop_left' (Word.length_toBytes ..)
  refine ⟨?_, ?_, hback⟩
  · rw [hsplit, List.length_append, hsix, List.length_append, Word.length_toBytes, ← Nat.add_assoc]
  · rw [hfront, List.take_left' (Word.length_toBytes ..), Word.ofBytes_toBytes_of_lt hlength]

/-- A part of a preamble that was written is incomplete. -/
theorem ofBytes_of_prefix {p : Preamble} {bytes front : Bytes} (h : p.toBytes = .ok bytes)
    (hfront : front <+: bytes) (hne : front ≠ bytes) : ofBytes front = .error .incomplete := by
  obtain ⟨hfits, rfl⟩ := toBytes_eq_ok_iff.1 h
  exact ofBytes_of_cut hfits hfront hne

/-- **Preambles open the streams that they were written for.**  A preamble can be
    written exactly when its metadata is not too long for its length field, which
    then holds this length.  Whatever follows the preamble, it opens a deserializer
    of the same width with the same strings, whose running timestamp is the
    reference timestamp in a four-byte stream, and all of the preamble is used.  A
    part of it is incomplete, wherever it is cut. -/
theorem opens_as_written (p : Preamble) :
    ((∃ bytes, p.toBytes = .ok bytes) ↔ p.metadata.length ≤ 65535) ∧
    ∀ bytes, p.toBytes = .ok bytes →
      (bytes.length = 8 + p.metadata.length ∧
        Word.ofBytes ((bytes.drop 6).take 2) = p.metadata.length ∧ bytes.drop 8 = p.metadata) ∧
      (∀ rest, ∃ d : Deserializer, Deserializer.ofBytes (bytes ++ rest) = .ok (d, bytes.length) ∧
        d.width = p.width ∧ d.info = p.info ∧
        d.runningTimestamp? =
          match p.width with
          | .fourByte => some p.reference
          | .eightByte => none) ∧
      (∀ front, front <+: bytes → front ≠ bytes →
        Deserializer.ofBytes front = .error .incomplete) := by
  refine ⟨?_, ?_⟩
  · constructor
    · intro hwritten
      obtain ⟨bytes, hbytes⟩ := hwritten
      exact (toBytes_eq_ok_iff.1 hbytes).1
    · intro hfits
      exact ⟨_, toBytes_eq_ok_iff.2 ⟨hfits, rfl⟩⟩
  · intro bytes hbytes
    refine ⟨layout_of_toBytes hbytes, ?_, ?_⟩
    · intro rest
      refine ⟨.ofPreamble p.kept, ?_, rfl, rfl, ?_⟩
      · rw [Deserializer.ofBytes, ofBytes_toBytes_append hbytes]
        rfl
      · -- the reference timestamp of an eight-byte stream is not kept
        obtain ⟨width, info, reference⟩ := p
        cases width <;> rfl
    · intro front hfront hne
      rw [Deserializer.ofBytes, ofBytes_of_prefix hbytes hfront hne]
      rfl

/-- Strings with a quote, a backslash, control characters, U+007F and a character
    beyond the first plane, and the least timestamp. -/
theorem opens_as_written_escapes :
    ∃ bytes, Preamble.toBytes ⟨.fourByte, ⟨"\"\\\x01\n", "\x7f", "𝄞"⟩, Int64.minValue⟩ =
        .ok bytes ∧
      Deserializer.ofBytes (bytes.take 20) = .error .incomplete ∧
      ∃ d : Deserializer, Deserializer.ofBytes (bytes ++ [0xFF]) = .ok (d, bytes.length) ∧
        d.width = .fourByte ∧ d.info = ⟨"\"\\\x01\n", "\x7f", "𝄞"⟩ ∧
        d.runningTimestamp? = some Int64.minValue := by
  obtain ⟨hfits, hopens⟩ :=
    opens_as_written ⟨.fourByte, ⟨"\"\\\x01\n", "\x7f", "𝄞"⟩, Int64.minValue⟩
  obtain ⟨bytes, hbytes⟩ := hfits.2 (by decide +kernel)
  obtain ⟨⟨hlength, -⟩, hwhole, hpart⟩ := hopens bytes hbytes
  refine ⟨bytes, hbytes, hpart _ (List.take_prefix 20 bytes) ?_, hwhole [0xFF]⟩
  intro heq
  have hshort : bytes.length ≤ 20 := by
    rw [← heq]
    exact List.length_take_le ..
  have hlong : 20 < (Preamble.metadata
      ⟨.fourByte, ⟨"\"\\\x01\n", "\x7f", "𝄞"⟩, Int64.minValue⟩).length := by decide +kernel
  omega

end Preamble

end LogCodec
