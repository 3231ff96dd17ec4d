import LogCodec.Proofs.Json.Lexis
import LogCodec.Proofs.Stream.Metadata
import LogCodec.Proofs.Text.Lossy

/-! # What metadata means

    Which bytes are the metadata of a preamble, said without the functions that read them.

    * `Blank.IsWhiteSpace`, `Blank.Trimmed`: a text without the white space at its ends.
    * `Field`: what the members of an object say of a known key.
    * `Describes`: the strings of the metadata.
    * `Means`, `means_iff`: the preambles that have this metadata. -/

namespace LogCodec

/-! ### Blanks -/

namespace Blank

/-- The character has the property White_Space: it is a control character that moves the
    cursor, a space of some width, or a separator of lines or paragraphs. -/
def IsWhiteSpace (c : Char) : Prop :=
  '\t' ≤ c ∧ c ≤ '\r' ∨ c = ' ' ∨ c = '\u0085' ∨ c = '\u00A0' ∨ c = '\u1680' ∨
    '\u2000' ≤ c ∧ c ≤ '\u200A' ∨ c = '\u2028' ∨ c = '\u2029' ∨ c = '\u202F' ∨
    c = '\u205F' ∨ c = '\u3000'

/-- The text without the white space at its two ends. -/
inductive Trimmed : (text core : List Char) → Prop
  | intro {front core back : List Char} :
    (∀ c ∈ front, IsWhiteSpace c) → (∀ c ∈ back, IsWhiteSpace c) →
    (∀ c ∈ core.head?, ¬ IsWhiteSpace c) → (∀ c ∈ core.getLast?, ¬ IsWhiteSpace c) →
    Trimmed (front ++ core ++ back) core

/-- The table of blanks has these characters and no others. -/
theorem isBlank_iff {c : Char} : isBlank c = true ↔ IsWhiteSpace c := by
  simp only [isBlank, ranges, IsWhiteSpace, List.any_cons, List.any_nil, Bool.or_false,
    Bool.or_eq_true, Bool.and_eq_true, decide_eq_true_eq, Char.le_def, UInt32.le_iff_toNat_le,
    ← Char.toNat_inj]
  simp only [Char.toNat, Char.reduceVal, UInt32.reduceToNat]
  omega

theorem isBlank_eq_false_iff {c : Char} : isBlank c = false ↔ ¬ IsWhiteSpace c := by
  rw [← isBlank_iff, Bool.not_eq_true]

theorem dropWhile_eq_self {text : List Char} (h : ∀ c ∈ text.head?, isBlank c = false) :
    text.dropWhile isBlank = text := by
  cases text with
  | nil => rfl
  | cons c text => exact List.dropWhile_cons_of_neg (by simp [h c rfl])

theorem head?_dropWhile (text : List Char) :
    ∀ c ∈ (text.dropWhile isBlank).head?, isBlank c = false := by
  intro c hc
  have hstop := text.head?_dropWhile_not isBlank
  rw [hc] at hstop
  exact hstop

/-- Every text has one core. -/
theorem trimmed_iff {text core : List Char} : Trimmed text core ↔ trim text = core := by
  constructor
  · intro h
    cases h with
    | @intro front core back hfront hback hhead hlast =>
      simp only [← isBlank_iff] at hfront hback
      simp only [← isBlank_eq_false_iff] at hhead hlast
      rw [trim, List.append_assoc, List.dropWhile_append_of_pos hfront]
      cases core with
      | nil =>
        rw [List.nil_append, List.dropWhile_eq_nil_iff.2 hback]
        rfl
      | cons c core =>
        have hhead' : ∀ x ∈ (c :: core ++ back).head?, isBlank x = false := hhead
        have hback' : ∀ x ∈ back.reverse, isBlank x = true := fun x hx =>
          hback x (List.mem_reverse.1 hx)
        rw [dropWhile_eq_self hhead', List.reverse_append, List.dropWhile_append_of_pos hback',
          dropWhile_eq_self (by rwa [List.head?_reverse]), List.reverse_reverse]
  · rintro rfl
    -- what was dropped in front, and what was dropped behind
    have hcut := text.takeWhile_append_dropWhile (p := isBlank)
    have hcut' : trim text ++ ((text.dropWhile isBlank).reverse.takeWhile isBlank).reverse =
        text.dropWhile isBlank := by
      rw [trim, ← List.reverse_append, List.takeWhile_append_dropWhile, List.reverse_reverse]
    suffices h : Trimmed (text.takeWhile isBlank ++ trim text ++
        ((text.dropWhile isBlank).reverse.takeWhile isBlank).reverse) (trim text) by
      rwa [List.append_assoc, hcut', hcut] at h
    refine .intro (fun _ hc => isBlank_iff.1 (List.mem_takeWhile_imp hc))
      (fun _ hc => isBlank_iff.1 (List.mem_takeWhile_imp (List.mem_reverse.1 hc))) ?_ ?_
    · intro c hc
      apply isBlank_eq_false_iff.1
      obtain ⟨rest, hrest⟩ := List.head?_eq_some_iff.1 hc
      apply head?_dropWhile text
      rw [← hcut', hrest]
      rfl
    · intro c hc
      rw [trim, List.getLast?_reverse] at hc
      exact isBlank_eq_false_iff.1 (head?_dropWhile _ c hc)

end Blank

/-! ### Members -/

namespace Json

variable {key : List Char} {members : List (List Char × Json)} {v : Json}

/-- The value stands at the last member with this key. -/
def IsMember (key : List Char) (members : List (List Char × Json)) (v : Json) : Prop :=
  ∃ front back, members = front ++ (key, v) :: back ∧ ∀ m ∈ back, m.1 ≠ key

theorem member?_eq_some_iff : member? key members = some v ↔ IsMember key members v := by
  rw [member?, List.lookup_eq_some_iff]
  constructor
  · rintro ⟨back, front, hmembers, hback⟩
    refine ⟨front.reverse, back.reverse, ?_, ?_⟩
    · rw [← List.reverse_reverse members, hmembers]
      simp
    · intro m hm
      exact (bne_iff_ne.1 (hback m (List.mem_reverse.1 hm))).symm
  · rintro ⟨front, back, rfl, hback⟩
    refine ⟨back.reverse, front.reverse, by simp, ?_⟩
    intro m hm
    exact bne_iff_ne.2 (hback m (List.mem_reverse.1 hm)).symm

theorem member?_eq_none_iff : member? key members = none ↔ ∀ m ∈ members, m.1 ≠ key := by
  rw [member?, List.lookup_eq_none_iff]
  simp only [List.mem_reverse, bne_iff_ne, ne_comm]

end Json

namespace Preamble

/-- What the members of an object say of a known key: the string of the key, or nothing
    where the key is absent or `null`. -/
inductive Field (key : List Char) (members : List (List Char × Json)) : Option String → Prop
  | absent : (∀ m ∈ members, m.1 ≠ key) → Field key members none
  | null : Json.IsMember key members .null → Field key members none
  | string {chars : List Char} :
    Json.IsMember key members (.string chars) → Field key members (some (String.ofList chars))

theorem field_iff {key : List Char} {members : List (List Char × Json)} {value : Option String} :
    Field key members value ↔ field? key members = some value := by
  constructor
  · intro h
    cases h with
    | absent h => rw [field?, Json.member?_eq_none_iff.2 h]
    | null h => rw [field?, Json.member?_eq_some_iff.2 h]
    | string h => rw [field?, Json.member?_eq_some_iff.2 h]
  · intro h
    unfold field? at h
    split at h
    case h_1 hnone =>
      obtain rfl := Option.some.inj h
      exact .absent (Json.member?_eq_none_iff.1 hnone)
    case h_2 hnull =>
      obtain rfl := Option.some.inj h
      exact .null (Json.member?_eq_some_iff.1 hnull)
    case h_3 chars hstring =>
      obtain rfl := Option.some.inj h
      exact .string (Json.member?_eq_some_iff.1 hstring)
    case h_4 => cases h

/-- The metadata is an object in which each known key is absent, `null` or a string, and
    these are the strings. -/
inductive Describes : (metadata : Bytes) → TimestampInfo → (reference : Option String) → Prop
  | intro {text : List Char} {members : List (List Char × Json)}
      {pattern patternSyntax timeZone reference : Option String} :
    Json.IsText text (.object members) →
    Field patternKey members pattern → Field patternSyntaxKey members patternSyntax →
    Field timeZoneKey members timeZone → Field referenceKey members reference →
    Describes (Utf8.encode text)
      ⟨pattern.getD "", patternSyntax.getD "", timeZone.getD ""⟩ reference

theorem describes_iff {metadata : Bytes} {info : TimestampInfo} {reference : Option String} :
    Describes metadata info reference ↔ strings? metadata = some (info, reference) := by
  constructor
  · intro h
    cases h with
    | intro htext hpattern hsyntax hzone hreference =>
      rw [strings?, Utf8.decode?_encode, Option.bind_some, Json.parse?_eq_some_iff.2 htext]
      simp only [field_iff.1 hpattern, field_iff.1 hsyntax, field_iff.1 hzone,
        field_iff.1 hreference]
      rfl
  · intro h
    unfold strings? at h
    split at h
    case h_1 members hobject =>
      obtain ⟨text, htext, hparse⟩ := Option.bind_eq_some_iff.1 hobject
      obtain ⟨pattern, hpattern, h⟩ := Option.bind_eq_some_iff.1 h
      obtain ⟨patternSyntax, hsyntax, h⟩ := Option.bind_eq_some_iff.1 h
      obtain ⟨timeZone, hzone, h⟩ := Option.bind_eq_some_iff.1 h
      obtain ⟨reference', hreference, h⟩ := Option.bind_eq_some_iff.1 h
      obtain ⟨rfl, rfl⟩ := Prod.mk.inj (Option.some.inj h)
      rw [← Utf8.decode?_eq_some_iff.1 htext]
      exact .intro (Json.parse?_eq_some_iff.1 hparse) (field_iff.2 hpattern)
        (field_iff.2 hsyntax) (field_iff.2 hzone) (field_iff.2 hreference)
    case h_2 => cases h

/-- The metadata of a preamble.  Only a four-byte stream makes a number of the reference
    timestamp, which is a decimal number between white space. -/
inductive Means (metadata : Bytes) : Preamble → Prop
  | eightByte {info : TimestampInfo} {reference : Option String} :
    Describes metadata info reference → Means metadata ⟨.eightByte, info, 0⟩
  | unreferenced {info : TimestampInfo} :
    Describes metadata info none → Means metadata ⟨.fourByte, info, 0⟩
  | referenced {info : TimestampInfo} {text : String} {core : List Char} {value : Int64} :
    Describes metadata info (some text) → Blank.Trimmed text.toList core →
    Decimal.Denotes (Utf8.encode core) value → Means metadata ⟨.fourByte, info, value⟩

theorem readReference_eq_ok_iff {text : String} {value : Int64} :
    readReference text = .ok value ↔
      ∃ core, Blank.Trimmed text.toList core ∧ Decimal.Denotes (Utf8.encode core) value := by
  simp only [Blank.trimmed_iff, exists_eq_left', ← Decimal.readInt64_eq_ok_iff]
  rw [readReference]
  cases Decimal.readInt64 (Utf8.encode (Blank.trim text.toList)) with
  | ok value' => simp only [Except.ok.injEq]
  | error cause => simp only [reduceCtorEq]

theorem means_iff {metadata : Bytes} {p : Preamble} :
    Means metadata p ↔ ofMetadata p.width metadata = .ok p := by
  constructor
  · intro h
    cases h with
    | eightByte h => rw [ofMetadata, describes_iff.1 h]
    | unreferenced h => rw [ofMetadata, describes_iff.1 h]
    | referenced h hcore hvalue =>
      simp only [ofMetadata, describes_iff.1 h,
        readReference_eq_ok_iff.2 ⟨_, hcore, hvalue⟩]
      rfl
  · intro h
    obtain ⟨width, info, reference⟩ := p
    unfold ofMetadata at h
    cases hstrings : strings? metadata with
    | none =>
      rw [hstrings] at h
      cases h
    | some found =>
      obtain ⟨info', reference'⟩ := found
      have hdescribes := describes_iff.2 hstrings
      rw [hstrings] at h
      cases width with
      | eightByte =>
        cases h
        exact .eightByte hdescribes
      | fourByte =>
        cases reference' with
        | none =>
          cases h
          exact .unreferenced hdescribes
        | some text =>
          obtain ⟨value, hvalue, h⟩ := Result.map_eq_ok_iff.1 h
          cases h
          obtain ⟨core, hcore, hdenotes⟩ := readReference_eq_ok_iff.1 hvalue
          exact .referenced hdescribes hcore hdenotes

theorem width_of_ofMetadata {width : Width} {metadata : Bytes} {p : Preamble}
    (h : ofMetadata width metadata = .ok p) : p.width = width := by
  unfold ofMetadata at h
  split at h
  · cases h
  · split at h
    · obtain ⟨value, -, rfl⟩ := Result.map_eq_ok_iff.1 h
      rfl
    · cases h
      rfl

/-- Nothing else is reported of metadata. -/
theorem fault_of_ofMetadata {width : Width} {metadata : Bytes} {e : Error}
    (h : ofMetadata width metadata = .error e) : ∃ fault, e = .metadata fault := by
  unfold ofMetadata at h
  split at h
  · cases h
    exact ⟨_, rfl⟩
  · split at h
    · rename_i text
      unfold readReference at h
      split at h
      · cases h
      · cases h
        exact ⟨_, rfl⟩
    · cases h

end Preamble

end LogCodec
