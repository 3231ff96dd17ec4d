import LogCodec.Proofs.Text.Utf8

/-! # Invalid parts

    Reading bytes that need not be UTF-8 cuts them into the encodings of characters
    and maximal invalid parts.  An invalid part stands where no character does.  It
    is the longest run of bytes that begins the encoding of a character, or one byte
    when not even that byte does.

    - `Begins`, `Invalid`: such parts, said in terms of encodings alone.
    - `ReadsAs`: the text of bytes, with U+FFFD for each invalid part.
    - `utf8EncodeChar_of_continuation`: bytes that fit are those of a character.
    - `firstPiece_spec`: the first piece is a character or an invalid part.
    - `readsAs_iff`: every sequence of bytes has one text, the one that is read.
    - `decode?_eq_some_iff`: bytes without invalid parts are those of a text. -/

namespace LogCodec.Utf8

/-! ### Texts of bytes -/

/-- The bytes begin the encoding of a character. -/
def Begins (bytes : Bytes) : Prop := ∃ c, bytes <+: String.utf8EncodeChar c

/-- `part` is a maximal invalid part in front of `rest`. -/
structure Invalid (part rest : Bytes) : Prop where
  nonempty : part ≠ []
  /-- No character stands here. -/
  no_char : ∀ c, ¬ String.utf8EncodeChar c <+: part ++ rest
  begins : part.length = 1 ∨ Begins part
  /-- No longer part begins a character. -/
  longest : ∀ longer, longer <+: part ++ rest → part.length < longer.length → ¬ Begins longer

/-- The bytes are read as the text. -/
inductive ReadsAs : Bytes → List Char → Prop where
  | nil : ReadsAs [] []
  | char (c : Char) {rest : Bytes} {text : List Char} :
      ReadsAs rest text → ReadsAs (String.utf8EncodeChar c ++ rest) (c :: text)
  | invalid {part rest : Bytes} {text : List Char} (hpart : Invalid part rest) :
      ReadsAs rest text → ReadsAs (part ++ rest) (replacement :: text)

/-! ### Leading bytes -/

/-- A leading byte says how many bytes follow, and which ones. -/
inductive Leads : UInt8 → Lead → Prop where
  | one {n : Nat} (h : n < 0x80) : Leads (UInt8.ofNat n) ⟨n, 0, 0x80, 0xBF⟩
  | two {n : Nat} (h : 2 ≤ n) (h' : n < 0x20) : Leads (UInt8.ofNat (n + 0xC0)) ⟨n, 1, 0x80, 0xBF⟩
  | three {n : Nat} (h : n < 0x10) : Leads (UInt8.ofNat (n + 0xE0))
      ⟨n, 2, if n = 0 then 0xA0 else 0x80, if n = 0xD then 0x9F else 0xBF⟩
  | four {n : Nat} (h : n < 5) : Leads (UInt8.ofNat (n + 0xF0))
      ⟨n, 3, if n = 0 then 0x90 else 0x80, if n = 4 then 0x8F else 0xBF⟩

theorem exists_ofNat_add {b : UInt8} {low : Nat} (h : low ≤ b.toNat) :
    ∃ n, b = UInt8.ofNat (n + low) ∧ b.toNat = n + low :=
  ⟨b.toNat - low, by rw [Nat.sub_add_cancel h, UInt8.ofNat_toNat], (Nat.sub_add_cancel h).symm⟩

/-- Bytes that only continue a character, that begin overlong forms, or that are in no
    character, lead none. -/
theorem lead?_eq_none {b : UInt8}
    (h : (0x80 ≤ b.toNat ∧ b.toNat < 0xC2) ∨ 0xF5 ≤ b.toNat) : lead? b = none := by
  rcases h with ⟨hb, hb'⟩ | hb
  · rw [lead?, if_neg, if_pos (UInt8.lt_iff_toNat_lt.2 hb')]
    exact fun hlt => Nat.not_lt.2 hb (UInt8.lt_iff_toNat_lt.1 hlt)
  · have hlt (n : UInt8) (hn : n.toNat < 0xF5) : ¬ b < n := by
      rw [UInt8.lt_iff_toNat_lt]
      omega
    have hne (n : UInt8) (hn : n.toNat < 0xF5) : b ≠ n := by
      rintro rfl
      omega
    rw [lead?, if_neg (hlt _ (by decide)), if_neg (hlt _ (by decide)), if_neg (hlt _ (by decide)),
      if_neg (hne _ (by decide)), if_neg (hne _ (by decide)), if_neg (hlt _ (by decide)),
      if_neg (hne _ (by decide)), if_neg (hlt _ (by decide)), if_neg (hne _ (by decide))]

theorem leads_of_lead? {b : UInt8} {lead : Lead} (h : lead? b = some lead) : Leads b lead := by
  have hlt : b.toNat < 256 := b.toNat_lt
  -- one case for each range of leading bytes, and two for the bytes that are none
  rcases (by omega : b.toNat < 0x80 ∨ (0x80 ≤ b.toNat ∧ b.toNat < 0xC2) ∨
    (0xC2 ≤ b.toNat ∧ b.toNat < 0xE0) ∨ (0xE0 ≤ b.toNat ∧ b.toNat < 0xF0) ∨
    (0xF0 ≤ b.toNat ∧ b.toNat < 0xF5) ∨ 0xF5 ≤ b.toNat) with
    hb | ⟨hb, hb'⟩ | ⟨hb, hb'⟩ | ⟨hb, hb'⟩ | ⟨hb, hb'⟩ | hb
  · obtain ⟨n, rfl, hn⟩ := exists_ofNat_add (Nat.zero_le b.toNat)
    rw [Nat.add_zero] at h ⊢
    rw [lead?_one (by omega)] at h
    cases h
    exact .one (by omega)
  · rw [lead?_eq_none (.inl ⟨hb, hb'⟩)] at h
    cases h
  · obtain ⟨n, rfl, hn⟩ := exists_ofNat_add (Nat.le_trans (by omega : 0xC0 ≤ 0xC2) hb)
    rw [lead?_two (by omega) (by omega)] at h
    cases h
    exact .two (by omega) (by omega)
  · obtain ⟨n, rfl, hn⟩ := exists_ofNat_add hb
    rw [lead?_three (by omega)] at h
    cases h
    exact .three (by omega)
  · obtain ⟨n, rfl, hn⟩ := exists_ofNat_add hb
    rw [lead?_four (by omega)] at h
    cases h
    exact .four (by omega)
  · rw [lead?_eq_none (.inr hb)] at h
    cases h

/-! ### Continuation bytes -/

section

variable {more value : Nat} {low high b : UInt8} {rest : Bytes}

theorem continuation_of_inRange (h : low ≤ b ∧ b ≤ high) :
    continuation (more + 1) low high value (b :: rest) =
      ((continuation more 0x80 0xBF (value * 64 + (b.toNat - 0x80)) rest).1,
        (continuation more 0x80 0xBF (value * 64 + (b.toNat - 0x80)) rest).2 + 1) := by
  rw [continuation, if_pos h]

theorem continuation_of_not_inRange (h : ¬ (low ≤ b ∧ b ≤ high)) :
    continuation (more + 1) low high value (b :: rest) = (none, 0) := by
  rw [continuation, if_neg h]

/-- The first of the bytes that fit is in range, and gives six bits of the code
    point. -/
theorem continuation_eq_some {code used : Nat}
    (h : continuation (more + 1) low high value rest = (some code, used))
    (hlow : 0x80 ≤ low.toNat) :
    ∃ n tail used', rest = UInt8.ofNat (n + 0x80) :: tail ∧ used = used' + 1 ∧
      low.toNat ≤ n + 0x80 ∧ n + 0x80 ≤ high.toNat ∧
      continuation more 0x80 0xBF (value * 64 + n) tail = (some code, used') := by
  cases rest with
  | nil => cases h
  | cons b tail =>
    by_cases hb : low ≤ b ∧ b ≤ high
    · have hlow' := UInt8.le_iff_toNat_le.1 hb.1
      have hhigh' := UInt8.le_iff_toNat_le.1 hb.2
      obtain ⟨n, rfl, hn⟩ := exists_ofNat_add (Nat.le_trans hlow hlow')
      rw [continuation_of_inRange hb, hn, Nat.add_sub_cancel] at h
      obtain ⟨hcode, hused⟩ := Prod.mk.inj h
      exact ⟨n, tail, _, rfl, hused.symm, hn ▸ hlow', hn ▸ hhigh', Prod.ext hcode rfl⟩
    · rw [continuation_of_not_inRange hb] at h
      cases h

/-- Behind the second byte of a character all six bits are free. -/
theorem continuation_tail_eq_some {code used : Nat}
    (h : continuation (more + 1) 0x80 0xBF value rest = (some code, used)) :
    ∃ n tail used', n < 64 ∧ rest = UInt8.ofNat (n + 0x80) :: tail ∧ used = used' + 1 ∧
      continuation more 0x80 0xBF (value * 64 + n) tail = (some code, used') := by
  obtain ⟨n, tail, used', hrest, hused, -, hn, h⟩ := continuation_eq_some h (Nat.le_refl 0x80)
  have hn' : n + 0x80 ≤ 0xBF := hn
  exact ⟨n, tail, used', by omega, hrest, hused, h⟩

/-- Bytes that fit in front of some bytes and not in front of others are among those
    that fit there too. -/
theorem length_le_used {front x y : Bytes} {code : Nat}
    (h : (continuation more low high value (front ++ x)).1 = some code)
    (h' : (continuation more low high value (front ++ y)).1 = none) :
    front.length ≤ (continuation more low high value (front ++ y)).2 := by
  induction front generalizing more low high value with
  | nil => exact Nat.zero_le _
  | cons b front ih =>
    cases more with
    | zero => cases h'
    | succ more =>
      rw [List.cons_append] at h h' ⊢
      by_cases hb : low ≤ b ∧ b ≤ high
      · rw [continuation_of_inRange hb] at h h' ⊢
        exact Nat.succ_le_succ (ih h h')
      · rw [continuation_of_not_inRange hb] at h
        cases h

/-- Some bytes fit. -/
theorem exists_continuation (more value : Nat) (hrange : low ≤ high) :
    ∃ code filler, continuation more low high value filler = (some code, filler.length) := by
  induction more generalizing low high value with
  | zero => exact ⟨value, [], rfl⟩
  | succ more ih =>
    obtain ⟨code, filler, hfiller⟩ :=
      ih (value * 64 + (low.toNat - 0x80)) (by decide : (0x80 : UInt8) ≤ 0xBF)
    refine ⟨code, low :: filler, ?_⟩
    rw [continuation_of_inRange ⟨UInt8.le_refl low, hrange⟩, hfiller]
    rfl

/-- The bytes that fit can be completed. -/
theorem exists_completion (hrange : low ≤ high)
    (h : (continuation more low high value rest).1 = none) :
    ∃ code filler, continuation more low high value
        (rest.take (continuation more low high value rest).2 ++ filler) =
      (some code, (rest.take (continuation more low high value rest).2 ++ filler).length) := by
  induction more generalizing low high value rest with
  | zero => cases h
  | succ more ih =>
    cases rest with
    | nil => exact exists_continuation (more + 1) value hrange
    | cons b rest =>
      by_cases hb : low ≤ b ∧ b ≤ high
      · rw [continuation_of_inRange hb] at h ⊢
        obtain ⟨code, filler, hfiller⟩ := ih (by decide) h
        refine ⟨code, filler, ?_⟩
        rw [List.take_succ_cons, List.cons_append, continuation_of_inRange hb, hfiller]
        rfl
      · rw [continuation_of_not_inRange hb]
        exact exists_continuation (more + 1) value hrange

end

/-! ### Characters -/

/-- Bytes that are led by one and fit are the encoding of a character. -/
theorem utf8EncodeChar_of_continuation {b : UInt8} {lead : Lead} (hlead : Leads b lead)
    {rest : Bytes} {code used : Nat}
    (h : continuation lead.more lead.low lead.high lead.payload rest = (some code, used)) :
    String.utf8EncodeChar (Char.ofNat code) = b :: rest.take used := by
  cases hlead with
  | @one n hn =>
    cases h
    have hcode : (Char.ofNat n).val.toNat = n := toNat_charOfNat (.inl (by omega))
    simp only [String.utf8EncodeChar, hcode]
    rw [if_pos (by omega), List.take_zero]
  | @two n hn hn' =>
    obtain ⟨m, tail, _, hm, rfl, rfl, hend⟩ := continuation_tail_eq_some h
    cases hend
    have hcode : (Char.ofNat (n * 64 + m)).val.toNat = n * 64 + m :=
      toNat_charOfNat (.inl (by omega))
    simp only [String.utf8EncodeChar, hcode]
    rw [if_neg (by omega), if_pos (by omega), show (n * 64 + m) / 64 % 0x20 = n by omega,
      show (n * 64 + m) % 64 = m by omega]
    rfl
  | @three n hn =>
    obtain ⟨k, tail, _, rfl, rfl, hlow, hhigh, hnext⟩ :=
      continuation_eq_some h (by dsimp only; split <;> decide)
    obtain ⟨m, tail, _, hm, rfl, rfl, hend⟩ := continuation_tail_eq_some hnext
    cases hend
    -- no overlong forms, and no surrogates
    have hleast : n = 0 → 0xA0 ≤ k + 0x80 := by
      rintro rfl
      exact hlow
    have hgreatest : k + 0x80 ≤ 0xBF ∧ (n = 0xD → k + 0x80 ≤ 0x9F) := by
      dsimp only at hhigh
      split at hhigh
      · exact ⟨Nat.le_trans hhigh (by decide), fun _ => hhigh⟩
      · exact ⟨hhigh, fun hn => absurd hn ‹_›⟩
    have hcode : (Char.ofNat ((n * 64 + k) * 64 + m)).val.toNat = (n * 64 + k) * 64 + m :=
      toNat_charOfNat (by unfold Nat.isValidChar; omega)
    simp only [String.utf8EncodeChar, hcode]
    rw [if_neg (by omega), if_neg (by omega), if_pos (by omega),
      show ((n * 64 + k) * 64 + m) / 4096 % 0x10 = n by omega,
      show ((n * 64 + k) * 64 + m) / 64 % 64 = k by omega,
      show ((n * 64 + k) * 64 + m) % 64 = m by omega]
    rfl
  | @four n hn =>
    obtain ⟨l, tail, _, rfl, rfl, hlow, hhigh, hnext⟩ :=
      continuation_eq_some h (by dsimp only; split <;> decide)
    obtain ⟨k, tail, _, hk, rfl, rfl, hnext'⟩ := continuation_tail_eq_some hnext
    obtain ⟨m, tail, _, hm, rfl, rfl, hend⟩ := continuation_tail_eq_some hnext'
    cases hend
    -- no overlong forms, and no numbers above U+10FFFF
    have hleast : n = 0 → 0x90 ≤ l + 0x80 := by
      rintro rfl
      exact hlow
    have hgreatest : l + 0x80 ≤ 0xBF ∧ (n = 4 → l + 0x80 ≤ 0x8F) := by
      dsimp only at hhigh
      split at hhigh
      · exact ⟨Nat.le_trans hhigh (by decide), fun _ => hhigh⟩
      · exact ⟨hhigh, fun hn => absurd hn ‹_›⟩
    have hcode : (Char.ofNat (((n * 64 + l) * 64 + k) * 64 + m)).val.toNat =
        ((n * 64 + l) * 64 + k) * 64 + m :=
      toNat_charOfNat (by unfold Nat.isValidChar; omega)
    simp only [String.utf8EncodeChar, hcode]
    rw [if_neg (by omega), if_neg (by omega), if_neg (by omega),
      show (((n * 64 + l) * 64 + k) * 64 + m) / 262144 % 8 = n by omega,
      show (((n * 64 + l) * 64 + k) * 64 + m) / 4096 % 64 = l by omega,
      show (((n * 64 + l) * 64 + k) * 64 + m) / 64 % 64 = k by omega,
      show (((n * 64 + l) * 64 + k) * 64 + m) % 64 = m by omega]
    rfl

theorem Leads.low_le_high {b : UInt8} {lead : Lead} (h : Leads b lead) :
    lead.low ≤ lead.high := by
  cases h with
  | one => exact (by decide : (0x80 : UInt8) ≤ 0xBF)
  | two => exact (by decide : (0x80 : UInt8) ≤ 0xBF)
  | @three n hn | @four n hn => revert n; decide

/-! ### Pieces -/

/-- In front of a character stands no piece but that character. -/
theorem firstPiece_of_prefix {c : Char} {b : UInt8} {rest : Bytes}
    (h : String.utf8EncodeChar c <+: b :: rest) : (firstPiece b rest).1 = .char c := by
  obtain ⟨more, hmore⟩ := h
  obtain ⟨b', tail, hbytes, hpiece⟩ := firstPiece_utf8EncodeChar c more
  rw [hbytes, List.cons_append] at hmore
  obtain ⟨rfl, rfl⟩ := List.cons.inj hmore
  rw [hpiece]

/-- What follows the leading byte of a character fits. -/
theorem exists_lead_of_prefix {c : Char} {b : UInt8} {rest : Bytes}
    (h : String.utf8EncodeChar c <+: b :: rest) : ∃ lead, lead? b = some lead ∧
      ∃ code, (continuation lead.more lead.low lead.high lead.payload rest).1 = some code := by
  have hpiece := firstPiece_of_prefix h
  unfold firstPiece at hpiece
  split at hpiece
  · cases hpiece
  case _ lead hlead =>
    refine ⟨lead, hlead, ?_⟩
    split at hpiece
    case _ code used hcode => exact ⟨code, by rw [hcode]⟩
    · cases hpiece

theorem exists_lead_of_begins {b : UInt8} {front : Bytes} (h : Begins (b :: front)) :
    ∃ lead, lead? b = some lead ∧ ∃ more code,
      (continuation lead.more lead.low lead.high lead.payload (front ++ more)).1 = some code := by
  obtain ⟨c, more, hc⟩ := h
  have hprefix : String.utf8EncodeChar c <+: b :: (front ++ more) :=
    hc ▸ List.prefix_refl (b :: front ++ more)
  obtain ⟨lead, hlead, hfits⟩ := exists_lead_of_prefix hprefix
  exact ⟨lead, hlead, more, hfits⟩

/-- Where no lead is, the byte is an invalid part. -/
theorem invalid_of_lead?_eq_none {b : UInt8} (h : lead? b = none) (rest : Bytes) :
    Invalid [b] rest where
  nonempty := List.cons_ne_nil b _
  no_char c hc := by
    obtain ⟨lead, hlead, -⟩ := exists_lead_of_prefix hc
    rw [h] at hlead
    cases hlead
  begins := .inl rfl
  longest longer hfront hlength hbegins := by
    rcases List.prefix_cons_iff.1 hfront with rfl | ⟨front, rfl, -⟩
    · cases hlength
    · obtain ⟨lead, hlead, -⟩ := exists_lead_of_begins hbegins
      rw [h] at hlead
      cases hlead

/-- Where bytes do not fit, those before them are an invalid part. -/
theorem invalid_of_continuation {b : UInt8} {lead : Lead} (hlead : lead? b = some lead)
    {rest : Bytes} {used : Nat}
    (h : continuation lead.more lead.low lead.high lead.payload rest = (none, used)) :
    Invalid (b :: rest.take used) (rest.drop used) where
  nonempty := List.cons_ne_nil b _
  no_char c hc := by
    rw [List.cons_append, List.take_append_drop] at hc
    obtain ⟨lead', hlead', code, hcode⟩ := exists_lead_of_prefix hc
    cases hlead.symm.trans hlead'
    rw [h] at hcode
    cases hcode
  begins := by
    have hleads := leads_of_lead? hlead
    obtain ⟨code, filler, hfiller⟩ := exists_completion hleads.low_le_high (congrArg Prod.fst h)
    have hchar := utf8EncodeChar_of_continuation hleads hfiller
    rw [h, List.take_length] at hchar
    exact .inr ⟨Char.ofNat code, filler, hchar.symm⟩
  longest longer hfront hlength hbegins := by
    rw [List.cons_append, List.take_append_drop] at hfront
    rcases List.prefix_cons_iff.1 hfront with rfl | ⟨front, rfl, behind, rfl⟩
    · cases hlength
    obtain ⟨lead', hlead', more, code, hcode⟩ := exists_lead_of_begins hbegins
    cases hlead.symm.trans hlead'
    -- the longer part would fit as well
    have hused := length_le_used hcode (congrArg Prod.fst h)
    rw [h] at hused
    simp only [List.length_cons, List.length_take, List.length_append] at hlength hused
    omega

/-- The first piece is a character or a maximal invalid part. -/
theorem firstPiece_spec (b : UInt8) (rest : Bytes) :
    (∃ c, (firstPiece b rest).1 = .char c ∧
        String.utf8EncodeChar c = b :: rest.take (firstPiece b rest).2) ∨
      (firstPiece b rest).1 = .broken (b :: rest.take (firstPiece b rest).2) ∧
        Invalid (b :: rest.take (firstPiece b rest).2) (rest.drop (firstPiece b rest).2) := by
  unfold firstPiece
  split
  case _ hlead => exact .inr ⟨rfl, invalid_of_lead?_eq_none hlead rest⟩
  case _ lead hlead =>
    split
    case _ code used hcode =>
      exact .inl ⟨_, rfl, utf8EncodeChar_of_continuation (leads_of_lead? hlead) hcode⟩
    case _ used hcode => exact .inr ⟨rfl, invalid_of_continuation hlead hcode⟩

/-- No invalid part is longer than another one of the same bytes. -/
theorem Invalid.length_le {part part' rest rest' : Bytes} (h : Invalid part rest)
    (h' : Invalid part' rest') (heq : part ++ rest = part' ++ rest') :
    part'.length ≤ part.length := by
  by_contra hlt
  have hpos : 0 < part.length := List.length_pos_iff.2 h.nonempty
  rcases h'.begins with hone | hbegins
  · omega
  · exact h.longest part' ⟨rest', heq.symm⟩ (by omega) hbegins

/-- An invalid part is the first piece. -/
theorem firstPiece_of_invalid {b : UInt8} {tail rest : Bytes} (h : Invalid (b :: tail) rest) :
    (firstPiece b (tail ++ rest)).1 = .broken (b :: tail) ∧
      (tail ++ rest).drop (firstPiece b (tail ++ rest)).2 = rest := by
  have hcut := List.take_append_drop (firstPiece b (tail ++ rest)).2 (tail ++ rest)
  rcases firstPiece_spec b (tail ++ rest) with ⟨c, -, hc⟩ | ⟨hpiece, hinvalid⟩
  · refine absurd ?_ (h.no_char c)
    exact ⟨(tail ++ rest).drop (firstPiece b (tail ++ rest)).2, by
      rw [hc, List.cons_append, hcut, List.cons_append]⟩
  · have heq := congrArg (b :: ·) hcut
    have hlength := Nat.le_antisymm (h.length_le hinvalid heq.symm) (hinvalid.length_le h heq)
    obtain ⟨hpart, hrest⟩ := List.append_inj heq hlength
    exact ⟨hpart ▸ hpiece, hrest⟩

/-! ### All bytes -/

/-- The character that stands for a piece. -/
theorem lossy_cons (b : UInt8) (rest : Bytes) : lossy (b :: rest) =
    (match (firstPiece b rest).1 with
      | .char c => c
      | .broken _ => replacement) :: lossy (rest.drop (firstPiece b rest).2) := by
  rw [lossy, pieces, List.map_cons]
  rfl

/-- What is read of bytes is a text of theirs. -/
theorem readsAs_lossy (bytes : Bytes) : ReadsAs bytes (lossy bytes) := by
  induction bytes using pieces.induct with
  | case1 =>
    rw [lossy, pieces]
    exact .nil
  | case2 b rest ih =>
    rw [lossy_cons]
    have hcut := List.take_append_drop (firstPiece b rest).2 rest
    rcases firstPiece_spec b rest with ⟨c, hpiece, hc⟩ | ⟨hpiece, hinvalid⟩
    · rw [hpiece]
      have hread := ReadsAs.char c ih
      rwa [hc, List.cons_append, hcut] at hread
    · rw [hpiece]
      have hread := ReadsAs.invalid hinvalid ih
      rwa [List.cons_append, hcut] at hread

/-- Every sequence of bytes has exactly one text. -/
theorem readsAs_iff {bytes : Bytes} {text : List Char} :
    ReadsAs bytes text ↔ text = lossy bytes := by
  constructor
  · intro h
    induction h with
    | nil =>
      rw [lossy, pieces]
      rfl
    | @char c rest text _ ih =>
      obtain ⟨b, more, hbytes, hpiece⟩ := firstPiece_utf8EncodeChar c rest
      rw [hbytes, List.cons_append, lossy_cons, hpiece, List.drop_left, ih]
    | @invalid part rest text hpart _ ih =>
      obtain ⟨b, tail, rfl⟩ := List.exists_cons_of_ne_nil hpart.nonempty
      obtain ⟨hpiece, hrest⟩ := firstPiece_of_invalid hpart
      rw [List.cons_append, lossy_cons, hpiece, hrest, ih]
  · rintro rfl
    exact readsAs_lossy bytes

/-- Valid bytes are those of a text, and are read as that text. -/
theorem decode?_eq_some_iff {bytes : Bytes} {text : List Char} :
    decode? bytes = some text ↔ encode text = bytes := by
  constructor
  · intro h
    induction bytes using pieces.induct generalizing text with
    | case1 =>
      rw [decode?, pieces] at h
      obtain rfl := Option.some.inj h
      rfl
    | case2 b rest ih =>
      rw [decode?, pieces, List.mapM_cons] at h
      obtain ⟨c, hc, h⟩ := Option.bind_eq_some_iff.1 h
      obtain ⟨text', htext', h⟩ := Option.bind_eq_some_iff.1 h
      obtain rfl := Option.some.inj h
      rcases firstPiece_spec b rest with ⟨c', hpiece, hbytes⟩ | ⟨hpiece, -⟩
      · rw [hpiece] at hc
        obtain rfl := Option.some.inj hc
        have hrest := ih htext'
        rw [encode] at hrest ⊢
        rw [List.flatMap_cons, hbytes, hrest, List.cons_append, List.take_append_drop]
      · rw [hpiece] at hc
        cases hc
  · rintro rfl
    exact decode?_encode text

/-- Two bytes of a character without the third are one part.  No character starts with
    the first two bytes of a surrogate, so each of its bytes is a part. -/
example : lossy [0xE2, 0x82, 0x5D, 0xED, 0xA0, 0x80] =
    [replacement, ']', replacement, replacement, replacement] := by
  decide +kernel

end LogCodec.Utf8
