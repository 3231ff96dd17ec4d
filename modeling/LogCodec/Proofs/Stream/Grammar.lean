import LogCodec.Proofs.Stream.Meaning
import LogCodec.Proofs.Stream.Preamble

/-! # The grammar of preambles

    What is at the front of a stream: a preamble, the beginning of one, or bytes that no
    preamble begins with.

    * `Reads`: what bytes are read as, one constructor for each way to end.
    * `reads_iff`: this is what is read of them.
    * `ofBytes_eq_ok_iff` and so on: the bytes of each kind of result.
    * `opens_by_grammar`: the same for the deserializer that is opened, and that more bytes do
      not change it. -/

namespace LogCodec

namespace Preamble

/-! ### Grammar -/

/-- What bytes are read as. -/
inductive Reads : Bytes → Result (Preamble × Nat) → Prop
  /-- They contradict the magic number. -/
  | foreign {bytes : Bytes} : ¬bytes <+: magic → ¬magic <+: bytes →
    Reads bytes (.error (.corrupted (.badMagic (bytes.take 4))))
  | badWidth {byte : UInt8} {rest : Bytes} : byte ≠ 4 → byte ≠ 8 →
    Reads (magic ++ byte :: rest) (.error (.corrupted (.badWidth byte)))
  | badKind {w : Width} {kind : UInt8} {rest : Bytes} : kind ≠ jsonKind →
    Reads (magic ++ w.toByte :: kind :: rest) (.error (.unsupportedMetadata kind))
  /-- They begin a preamble and end before it does. -/
  | cut {w : Width} {metadata bytes : Bytes} : metadata.length ≤ metadataMax →
    bytes <+: frame w metadata → bytes ≠ frame w metadata → Reads bytes (.error .incomplete)
  | refused {w : Width} {metadata rest : Bytes} {fault : MetadataFault} :
    metadata.length ≤ metadataMax → ofMetadata w metadata = .error (.metadata fault) →
    Reads (frame w metadata ++ rest) (.error (.metadata fault))
  | accepted {p : Preamble} {metadata rest : Bytes} :
    metadata.length ≤ metadataMax → Means metadata p →
    Reads (frame p.width metadata ++ rest) (.ok (p, 8 + metadata.length))

section

variable {w : Width} {metadata bytes : Bytes}

theorem ofBytes_of_foreign (h : ¬bytes <+: magic) (h' : ¬magic <+: bytes) :
    ofBytes bytes = .error (.corrupted (.badMagic (bytes.take 4))) := by
  apply ofBytes_of_readParts
  have hmagic : ¬(bytes.take magic.length).isPrefixOf magic = true := by
    rw [List.isPrefixOf_iff_prefix]
    intro hinitial
    by_cases hlength : bytes.length ≤ magic.length
    · rw [List.take_of_length_le hlength] at hinitial
      exact h hinitial
    · have heq := hinitial.eq_of_length (List.length_take_of_le (by omega))
      apply h'
      rw [← heq]
      exact List.take_prefix ..
  rw [readParts, readMagic_eq_error hmagic]
  rfl

/-! ### All bytes -/

/-- Too few bytes for the length of the metadata. -/
theorem reads_header (w : Width) (h : bytes <+: magic ++ [w.toByte, jsonKind]) :
    Reads bytes (.error .incomplete) := by
  have hframe : frame w [] = magic ++ [w.toByte, jsonKind] ++ Word.toBytes 2 0 := by
    simp [frame]
  have hlength : bytes.length ≤ 6 := h.length_le
  have hfits : ([] : Bytes).length ≤ metadataMax := Nat.zero_le _
  refine .cut (w := w) hfits ?_ ?_
  · rw [hframe]
    exact h.trans (List.prefix_append ..)
  · intro heq
    rw [heq, length_frame] at hlength
    omega

/-- The length of the metadata is in the two bytes before it. -/
theorem frame_of_length {a b : UInt8} (w : Width) (h : metadata.length = Word.ofBytes [a, b]) :
    metadata.length ≤ metadataMax ∧
      frame w metadata = magic ++ w.toByte :: jsonKind :: a :: b :: metadata := by
  have hlt : Word.ofBytes [a, b] < 256 ^ 2 := Word.ofBytes_lt [a, b]
  have hword : Word.toBytes 2 (Word.ofBytes [a, b]) = [a, b] := Word.toBytes_ofBytes [a, b]
  refine ⟨by rw [h]; exact Nat.le_of_lt_succ hlt, ?_⟩
  rw [frame, h, hword]
  rfl

/-- Too few bytes for the metadata. -/
theorem reads_cut {a b : UInt8} {rest : Bytes} (w : Width)
    (h : metadata.length = Word.ofBytes [a, b]) (hrest : rest <+: a :: b :: metadata)
    (hne : rest ≠ a :: b :: metadata) :
    Reads (magic ++ w.toByte :: jsonKind :: rest) (.error .incomplete) := by
  obtain ⟨hfits, hframe⟩ := frame_of_length w h
  refine .cut (w := w) hfits ?_ ?_
  · rw [hframe]
    exact (List.prefix_append_right_inj magic).2
      (List.cons_prefix_cons.2 ⟨rfl, List.cons_prefix_cons.2 ⟨rfl, hrest⟩⟩)
  · rw [hframe]
    intro heq
    exact hne (List.cons.inj (List.cons.inj (List.append_cancel_left heq)).2).2

theorem exists_reads_frame (w : Width) (h : metadata.length ≤ metadataMax) (rest : Bytes) :
    ∃ result, Reads (frame w metadata ++ rest) result := by
  cases hm : ofMetadata w metadata with
  | error e =>
    obtain ⟨fault, rfl⟩ := fault_of_ofMetadata hm
    exact ⟨_, .refused h hm⟩
  | ok p =>
    obtain rfl := width_of_ofMetadata hm
    exact ⟨_, .accepted h (means_iff.2 hm)⟩

theorem exists_reads_metadata (w : Width) (rest : Bytes) :
    ∃ result, Reads (magic ++ w.toByte :: jsonKind :: rest) result := by
  have hfiller (n : Nat) : (List.replicate n (0 : UInt8)).length = n := List.length_replicate
  match rest with
  | [] => exact ⟨_, reads_header w (List.prefix_refl _)⟩
  | [a] =>
    refine ⟨_, reads_cut w (hfiller (Word.ofBytes [a, 0])) ?_ ?_⟩
    · exact List.cons_prefix_cons.2 ⟨rfl, List.nil_prefix⟩
    · exact nofun
  | a :: b :: rest =>
    by_cases hlength : Word.ofBytes [a, b] ≤ rest.length
    · have htake : (rest.take (Word.ofBytes [a, b])).length = Word.ofBytes [a, b] :=
        List.length_take_of_le hlength
      obtain ⟨hfits, hframe⟩ := frame_of_length w htake
      have hreads := exists_reads_frame w hfits (rest.drop (Word.ofBytes [a, b]))
      rw [hframe] at hreads
      simpa using hreads
    · have hpadded : (rest ++ List.replicate (Word.ofBytes [a, b] - rest.length) 0).length =
          Word.ofBytes [a, b] := by
        rw [List.length_append, hfiller]
        omega
      refine ⟨_, reads_cut w hpadded ?_ ?_⟩
      · exact List.cons_prefix_cons.2 ⟨rfl, List.cons_prefix_cons.2 ⟨rfl, List.prefix_append ..⟩⟩
      · intro heq
        have hsame := congrArg List.length heq
        simp only [List.length_cons, hpadded] at hsame
        omega

theorem exists_toByte_or (byte : UInt8) :
    (∃ w : Width, byte = w.toByte) ∨ byte ≠ 4 ∧ byte ≠ 8 := by
  by_cases hfour : byte = 4
  · exact .inl ⟨.fourByte, hfour⟩
  by_cases height : byte = 8
  · exact .inl ⟨.eightByte, height⟩
  · exact .inr ⟨hfour, height⟩

/-- Bytes are read as something. -/
theorem exists_reads (bytes : Bytes) : ∃ result, Reads bytes result := by
  by_cases hmagic : magic <+: bytes
  · obtain ⟨rest, rfl⟩ := hmagic
    cases rest with
    | nil =>
      exact ⟨_, reads_header .fourByte ((List.prefix_append_right_inj magic).2 List.nil_prefix)⟩
    | cons byte rest =>
      rcases exists_toByte_or byte with ⟨w, rfl⟩ | ⟨hfour, height⟩
      · cases rest with
        | nil =>
          exact ⟨_, reads_header w ((List.prefix_append_right_inj magic).2
            (List.cons_prefix_cons.2 ⟨rfl, List.nil_prefix⟩))⟩
        | cons kind rest =>
          by_cases hkind : kind = jsonKind
          · rw [hkind]
            exact exists_reads_metadata w rest
          · exact ⟨_, .badKind hkind⟩
      · exact ⟨_, .badWidth hfour height⟩
  · by_cases hbegun : bytes <+: magic
    · exact ⟨_, reads_header .fourByte (hbegun.trans (List.prefix_append ..))⟩
    · exact ⟨_, .foreign hbegun hmagic⟩

theorem ofBytes_of_reads {result : Result (Preamble × Nat)} (h : Reads bytes result) :
    ofBytes bytes = result := by
  cases h with
  | foreign h h' => exact ofBytes_of_foreign h h'
  | @badWidth byte rest h h' =>
    apply ofBytes_of_readParts
    have hwidth : Width.ofByte? byte = none := by
      unfold Width.ofByte?
      split <;> first | rfl | contradiction
    simp [Cursor.ofBytes, readParts, readMagic_magic_append, readWidth, Cursor.byte?, need, hwidth,
      bind, Except.bind]
  | badKind h =>
    apply ofBytes_of_readParts
    simp [Cursor.ofBytes, readParts, readMagic_magic_append, readWidth_toByte, readKind,
      Cursor.byte?, need, h, bind, Except.bind]
  | cut h hcut hne => exact ofBytes_of_cut h hcut hne
  | refused h hfault =>
    rw [ofBytes_frame_append h, hfault]
    rfl
  | accepted h hmeans =>
    rw [ofBytes_frame_append h, means_iff.1 hmeans]
    rfl

theorem reads_iff {result : Result (Preamble × Nat)} :
    Reads bytes result ↔ ofBytes bytes = result := by
  constructor
  · exact ofBytes_of_reads
  · rintro rfl
    obtain ⟨result, hresult⟩ := exists_reads bytes
    rwa [ofBytes_of_reads hresult]

/-! ### Each kind of result -/

theorem ofBytes_eq_ok_iff {p : Preamble} {size : Nat} :
    ofBytes bytes = .ok (p, size) ↔ ∃ metadata, metadata.length ≤ metadataMax ∧
      Means metadata p ∧ frame p.width metadata <+: bytes ∧ size = 8 + metadata.length := by
  rw [← reads_iff]
  constructor
  · intro h
    cases h with
    | accepted hfits hmeans => exact ⟨_, hfits, hmeans, List.prefix_append .., rfl⟩
  · rintro ⟨metadata, hfits, hmeans, ⟨rest, rfl⟩, rfl⟩
    exact .accepted hfits hmeans

theorem ofBytes_eq_corrupted_iff {fault : Corruption} :
    ofBytes bytes = .error (.corrupted fault) ↔
      (¬bytes <+: magic ∧ ¬magic <+: bytes ∧ fault = .badMagic (bytes.take 4)) ∨
      ∃ byte, magic ++ [byte] <+: bytes ∧ byte ≠ 4 ∧ byte ≠ 8 ∧ fault = .badWidth byte := by
  rw [← reads_iff]
  constructor
  · intro h
    cases h with
    | foreign hbegun hmagic => exact .inl ⟨hbegun, hmagic, rfl⟩
    | @badWidth byte rest hfour height =>
      refine .inr ⟨byte, ?_, hfour, height, rfl⟩
      exact (List.prefix_append_right_inj magic).2 (List.cons_prefix_cons.2 ⟨rfl, List.nil_prefix⟩)
  · rintro (⟨hbegun, hmagic, rfl⟩ | ⟨byte, ⟨rest, rfl⟩, hfour, height, rfl⟩)
    · exact .foreign hbegun hmagic
    · rw [List.append_assoc]
      exact .badWidth hfour height

theorem ofBytes_eq_unsupportedMetadata_iff {kind : UInt8} :
    ofBytes bytes = .error (.unsupportedMetadata kind) ↔
      kind ≠ jsonKind ∧ ∃ w : Width, magic ++ [w.toByte, kind] <+: bytes := by
  rw [← reads_iff]
  constructor
  · intro h
    cases h with
    | @badKind w _ rest hkind =>
      refine ⟨hkind, w, (List.prefix_append_right_inj magic).2 ?_⟩
      exact List.cons_prefix_cons.2 ⟨rfl, List.cons_prefix_cons.2 ⟨rfl, List.nil_prefix⟩⟩
  · rintro ⟨hkind, w, rest, rfl⟩
    rw [List.append_assoc]
    exact .badKind hkind

theorem ofBytes_eq_incomplete_iff :
    ofBytes bytes = .error .incomplete ↔ ∃ w metadata, metadata.length ≤ metadataMax ∧
      bytes <+: frame w metadata ∧ bytes ≠ frame w metadata := by
  rw [← reads_iff]
  constructor
  · intro h
    cases h with
    | cut hfits hcut hne => exact ⟨_, _, hfits, hcut, hne⟩
  · rintro ⟨w, metadata, hfits, hcut, hne⟩
    exact .cut hfits hcut hne

theorem ofBytes_eq_metadata_iff :
    (∃ fault, ofBytes bytes = .error (.metadata fault)) ↔
      ∃ w metadata, metadata.length ≤ metadataMax ∧ frame w metadata <+: bytes ∧
        ¬∃ p, p.width = w ∧ Means metadata p := by
  simp only [← reads_iff]
  constructor
  · rintro ⟨fault, h⟩
    cases h with
    | @refused w metadata rest _ hfits hfault =>
      refine ⟨w, metadata, hfits, List.prefix_append .., ?_⟩
      rintro ⟨p, rfl, hmeans⟩
      rw [means_iff.1 hmeans] at hfault
      cases hfault
  · rintro ⟨w, metadata, hfits, ⟨rest, rfl⟩, hnone⟩
    cases hm : ofMetadata w metadata with
    | ok p =>
      obtain rfl := width_of_ofMetadata hm
      exact absurd ⟨p, rfl, means_iff.2 hm⟩ hnone
    | error e =>
      obtain ⟨fault, rfl⟩ := fault_of_ofMetadata hm
      exact ⟨fault, .refused hfits hm⟩

/-- Nothing else is reported. -/
theorem kinds_of_ofBytes {e : Error} (h : ofBytes bytes = .error e) :
    (∃ fault, e = .corrupted fault) ∨ (∃ kind, e = .unsupportedMetadata kind) ∨
      e = .incomplete ∨ ∃ fault, e = .metadata fault := by
  cases reads_iff.2 h with
  | foreign | badWidth => exact .inl ⟨_, rfl⟩
  | badKind => exact .inr (.inl ⟨_, rfl⟩)
  | cut => exact .inr (.inr (.inl rfl))
  | refused => exact .inr (.inr (.inr ⟨_, rfl⟩))

end

end Preamble

namespace Deserializer

theorem ofBytes_eq_ok_iff {bytes : Bytes} {d : Deserializer} {size : Nat} :
    ofBytes bytes = .ok (d, size) ↔
      ∃ p, Preamble.ofBytes bytes = .ok (p, size) ∧ d = ofPreamble p := by
  rw [ofBytes, Result.map_eq_ok_iff]
  constructor
  · rintro ⟨⟨p, size'⟩, hp, hd⟩
    obtain ⟨rfl, rfl⟩ := Prod.mk.inj hd
    exact ⟨p, hp, rfl⟩
  · rintro ⟨p, hp, rfl⟩
    exact ⟨(p, size), hp, rfl⟩

theorem ofBytes_eq_error_iff {bytes : Bytes} {e : Error} :
    ofBytes bytes = .error e ↔ Preamble.ofBytes bytes = .error e := by
  rw [ofBytes]
  cases Preamble.ofBytes bytes <;> simp [Except.map]

/-- **Preambles open streams by their grammar.**  A deserializer is opened exactly by the
    magic number, a width, the kind of the metadata, the length of the metadata and metadata
    that means a preamble, and all of these bytes are used.  Bytes that contradict the magic
    number are corrupted, and so is a byte that is no width; another kind is not supported.  A
    part of a preamble is incomplete, wherever it is cut and whatever its metadata is, and only
    when all of the metadata is there it may be refused.  Nothing else is reported, and
    whatever is not incomplete stays as it is when more bytes follow. -/
theorem opens_by_grammar (bytes : Bytes) :
    let result := ofBytes bytes
    (∀ d size, result = .ok (d, size) ↔
      ∃ p metadata, metadata.length ≤ 65535 ∧ Preamble.Means metadata p ∧
        Preamble.frame p.width metadata <+: bytes ∧
        d = ofPreamble p ∧ size = 8 + metadata.length) ∧
    (∀ fault, result = .error (.corrupted fault) ↔
      (¬bytes <+: Preamble.magic ∧ ¬Preamble.magic <+: bytes ∧
        fault = .badMagic (bytes.take 4)) ∨
      ∃ byte, Preamble.magic ++ [byte] <+: bytes ∧ byte ≠ 4 ∧ byte ≠ 8 ∧
        fault = .badWidth byte) ∧
    (∀ kind, result = .error (.unsupportedMetadata kind) ↔
      kind ≠ 1 ∧ ∃ w : Width, Preamble.magic ++ [w.toByte, kind] <+: bytes) ∧
    (result = .error .incomplete ↔
      ∃ w metadata, metadata.length ≤ 65535 ∧ bytes <+: Preamble.frame w metadata ∧
        bytes ≠ Preamble.frame w metadata) ∧
    ((∃ fault, result = .error (.metadata fault)) ↔
      ∃ w metadata, metadata.length ≤ 65535 ∧ Preamble.frame w metadata <+: bytes ∧
        ¬∃ p : Preamble, p.width = w ∧ Preamble.Means metadata p) ∧
    (∀ e, result = .error e → (∃ fault, e = .corrupted fault) ∨
      (∃ kind, e = .unsupportedMetadata kind) ∨ e = .incomplete ∨ ∃ fault, e = .metadata fault) ∧
    (result ≠ .error .incomplete → ∀ more, Result.Alike (ofBytes (bytes ++ more)) result) := by
  intro result
  refine ⟨?_, ?_, ?_, ?_, ?_, ?_, ?_⟩
  · intro d size
    rw [ofBytes_eq_ok_iff]
    constructor
    · rintro ⟨p, hp, rfl⟩
      obtain ⟨metadata, hfits, hmeans, hframe, hsize⟩ := Preamble.ofBytes_eq_ok_iff.1 hp
      exact ⟨p, metadata, hfits, hmeans, hframe, rfl, hsize⟩
    · rintro ⟨p, metadata, hfits, hmeans, hframe, rfl, hsize⟩
      exact ⟨p, Preamble.ofBytes_eq_ok_iff.2 ⟨metadata, hfits, hmeans, hframe, hsize⟩, rfl⟩
  · intro fault
    exact ofBytes_eq_error_iff.trans Preamble.ofBytes_eq_corrupted_iff
  · intro kind
    exact ofBytes_eq_error_iff.trans Preamble.ofBytes_eq_unsupportedMetadata_iff
  · exact ofBytes_eq_error_iff.trans Preamble.ofBytes_eq_incomplete_iff
  · simp only [result, ofBytes_eq_error_iff]
    exact Preamble.ofBytes_eq_metadata_iff
  · intro e he
    exact Preamble.kinds_of_ofBytes (ofBytes_eq_error_iff.1 he)
  · intro hne more
    have hsettled : Preamble.ofBytes bytes ≠ .error .incomplete := fun h =>
      hne (ofBytes_eq_error_iff.2 h)
    exact (Preamble.ofBytes_append hsettled more).map _

/-- A key that is repeated, where only the last value counts, a sign and blanks around the
    reference timestamp, and bytes behind the preamble. -/
theorem opens_by_grammar_repeated :
    let bytes := Preamble.frame .fourByte
      (Utf8.ofString "\x7b\"TZ_ID\":7,\"TZ_ID\":null,\"REFERENCE_TIMESTAMP\":\"\\u00a0+07\"\x7d")
    let d := ofPreamble ⟨.fourByte, ⟨"", "", ""⟩, 7⟩
    ofBytes bytes = .ok (d, bytes.length) ∧
    Result.Alike (ofBytes (bytes ++ [0x00])) (ofBytes bytes) := by
  intro bytes d
  have hopens : ofBytes bytes = .ok (d, bytes.length) := by decide +kernel
  obtain ⟨-, -, -, -, -, -, hmore⟩ := opens_by_grammar bytes
  exact ⟨hopens, hmore (by rw [hopens]; exact nofun) [0x00]⟩

end Deserializer

end LogCodec
