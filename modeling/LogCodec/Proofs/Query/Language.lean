import LogCodec.Proofs.Text.Lossy
import LogCodec.Query.Matcher

/-! # What queries mean

    The text of a query denotes a set of texts.  Reading the query into items,
    its normal form, and the search for a match all keep that set.

    - `Query.Denotes`: the texts that the text of a query stands for.
    - `Query.matches_tokens_iff`: its items stand for the same texts.
    - `Query.matches_clean_iff`: and so do the items of its normal form.
    - `Query.matchesText_iff`: the search decides it.
    - `Query.Admits`: the messages that are read as such texts. -/

namespace LogCodec.Query

/-! ### Characters -/

/-- The characters are identical, or both are ASCII and differ at most in case when
    that does not matter. -/
def Alike (caseSensitive : Bool) (a b : Char) : Prop :=
  a = b ∨ caseSensitive = false ∧ a.toNat < 0x80 ∧ b.toNat < 0x80 ∧ Ascii.lower a = Ascii.lower b

theorem toNat_lower (c : Char) : (Ascii.lower c).toNat =
    if 0x41 ≤ c.toNat ∧ c.toNat ≤ 0x5A then c.toNat + 0x20 else c.toNat := by
  unfold Ascii.lower
  simp only [Char.le_def, UInt32.le_iff_toNat_le, Char.toNat_val]
  rw [show 'A'.toNat = 0x41 from rfl, show 'Z'.toNat = 0x5A from rfl]
  split
  · exact Utf8.toNat_charOfNat (.inl (by omega))
  · rfl

/-- A character has a lower-case form of its own when it is not ASCII. -/
theorem ascii_of_lower_eq {a b : Char} (h : Ascii.lower a = Ascii.lower b) (hne : a ≠ b) :
    a.toNat < 0x80 ∧ b.toNat < 0x80 := by
  have hlower := congrArg Char.toNat h
  have hcode : a.toNat ≠ b.toNat := fun hcode => hne (Char.toNat_inj.1 hcode)
  rw [toNat_lower, toNat_lower] at hlower
  split at hlower <;> split at hlower <;> omega

theorem agrees_iff {caseSensitive : Bool} {a b : Char} :
    agrees caseSensitive a b = true ↔ Alike caseSensitive a b := by
  unfold agrees Alike
  cases caseSensitive with
  | true => simp
  | false =>
    simp only [Bool.false_eq_true, if_false, beq_iff_eq, true_and]
    constructor
    · intro h
      refine or_iff_not_imp_left.2 fun hne => ?_
      obtain ⟨ha, hb⟩ := ascii_of_lower_eq h hne
      exact ⟨ha, hb, h⟩
    · rintro (rfl | ⟨-, -, h⟩)
      · rfl
      · exact h

/-! ### Queries -/

/-- The item that a character of a query is, if it is no backslash. -/
def Token.ofChar (c : Char) : Token :=
  if c = '*' then .any else if c = '?' then .one else .literal c

theorem ofChar_eq_any_iff {c : Char} : Token.ofChar c = .any ↔ c = '*' := by
  unfold Token.ofChar
  split
  · simp [*]
  · split <;> simp [*]

theorem tokens_cons {c : Char} (h : c ≠ '\\') (rest : List Char) :
    tokens (c :: rest) = .ofChar c :: tokens rest := by
  unfold Token.ofChar
  split
  case isTrue hany =>
    subst hany
    rfl
  split
  case isTrue hone =>
    subst hone
    rfl
  case isFalse hany hone =>
    rw [tokens]
    · exact fun hc _ => h hc
    · exact fun _ _ hc _ => h hc
    · exact hany
    · exact hone

/-- A character that is read as neither a lone nor an escaping backslash is none. -/
theorem ne_escape {c : Char} {rest : List Char} (hlone : c = '\\' → rest = [] → False)
    (hescape : ∀ a rest', c = '\\' → rest = a :: rest' → False) : c ≠ '\\' := by
  intro hc
  cases rest with
  | nil => exact hlone hc rfl
  | cons a rest => exact hescape a rest hc rfl

/-- The texts that the text of a query stands for. -/
inductive Denotes (caseSensitive : Bool) : List Char → List Char → Prop where
  | nil : Denotes caseSensitive [] []
  /-- A backslash at the end stands for nothing. -/
  | loneEscape : Denotes caseSensitive ['\\'] []
  /-- A backslash makes the next character stand for itself. -/
  | escaped {a b : Char} {query text : List Char} :
      Alike caseSensitive a b → Denotes caseSensitive query text →
      Denotes caseSensitive ('\\' :: a :: query) (b :: text)
  | any (run : List Char) {query text : List Char} :
      Denotes caseSensitive query text → Denotes caseSensitive ('*' :: query) (run ++ text)
  | one (b : Char) {query text : List Char} :
      Denotes caseSensitive query text → Denotes caseSensitive ('?' :: query) (b :: text)
  /-- Every other character stands for itself. -/
  | itself {a b : Char} {query text : List Char} (hescape : a ≠ '\\') (hany : a ≠ '*')
      (hone : a ≠ '?') :
      Alike caseSensitive a b → Denotes caseSensitive query text →
      Denotes caseSensitive (a :: query) (b :: text)

section

variable {caseSensitive : Bool} {items items' : List Token} {query text : List Char}

theorem matches_nil_iff : Matches caseSensitive [] text ↔ text = [] := by
  constructor
  · rintro ⟨⟩
    rfl
  · rintro rfl
    exact .nil

theorem matches_any_iff : Matches caseSensitive (.any :: items) text ↔
    ∃ run rest, text = run ++ rest ∧ Matches caseSensitive items rest := by
  constructor
  · rintro (_ | ⟨run, h⟩)
    exact ⟨run, _, rfl, h⟩
  · rintro ⟨run, rest, rfl, h⟩
    exact .any run h

theorem matches_one_iff : Matches caseSensitive (.one :: items) text ↔
    ∃ b rest, text = b :: rest ∧ Matches caseSensitive items rest := by
  constructor
  · rintro (_ | _ | ⟨b, h⟩)
    exact ⟨b, _, rfl, h⟩
  · rintro ⟨b, rest, rfl, h⟩
    exact .one b h

theorem matches_literal_iff {a : Char} : Matches caseSensitive (.literal a :: items) text ↔
    ∃ b rest, text = b :: rest ∧ Alike caseSensitive a b ∧ Matches caseSensitive items rest := by
  constructor
  · rintro (_ | _ | _ | ⟨hagrees, h⟩)
    exact ⟨_, _, rfl, agrees_iff.1 hagrees, h⟩
  · rintro ⟨b, rest, rfl, halike, h⟩
    exact .literal (agrees_iff.2 halike) h

/-- Items that stand for the same texts do so behind one more item. -/
theorem matches_cons_congr
    (h : ∀ text, Matches caseSensitive items text ↔ Matches caseSensitive items' text)
    (item : Token) (text : List Char) :
    Matches caseSensitive (item :: items) text ↔ Matches caseSensitive (item :: items') text := by
  cases item with
  | any => simp only [matches_any_iff, h]
  | one => simp only [matches_one_iff, h]
  | literal a => simp only [matches_literal_iff, h]

/-- A second run after a run of characters adds nothing. -/
theorem matches_any_any_iff : Matches caseSensitive (.any :: .any :: items) text ↔
    Matches caseSensitive (.any :: items) text := by
  simp only [matches_any_iff]
  constructor
  · rintro ⟨run, _, rfl, run', rest, rfl, h⟩
    exact ⟨run ++ run', rest, (List.append_assoc ..).symm, h⟩
  · rintro ⟨run, rest, rfl, h⟩
    exact ⟨run, rest, rfl, [], rest, rfl, h⟩

/-- The items of a query stand for the texts that the query stands for. -/
theorem matches_tokens_iff :
    Matches caseSensitive (tokens query) text ↔ Denotes caseSensitive query text := by
  -- one case for each way that a query starts
  fun_induction tokens query generalizing text with
  | case1 =>
    rw [matches_nil_iff]
    constructor
    · rintro rfl
      exact .nil
    · rintro ⟨⟩
      rfl
  | case2 =>
    rw [matches_nil_iff]
    constructor
    · rintro rfl
      exact .loneEscape
    · intro h
      cases h with
      | loneEscape => rfl
      | itself hescape => contradiction
  | case3 a rest ih =>
    simp only [matches_literal_iff, ih]
    constructor
    · rintro ⟨b, text, rfl, halike, h⟩
      exact .escaped halike h
    · intro h
      cases h with
      | escaped halike h => exact ⟨_, _, rfl, halike, h⟩
      | itself hescape => contradiction
  | case4 rest ih =>
    simp only [matches_any_iff, ih]
    constructor
    · rintro ⟨run, text, rfl, h⟩
      exact .any run h
    · intro h
      cases h with
      | any run h => exact ⟨run, _, rfl, h⟩
      | itself _ hany => contradiction
  | case5 rest ih =>
    simp only [matches_one_iff, ih]
    constructor
    · rintro ⟨b, text, rfl, h⟩
      exact .one b h
    · intro h
      cases h with
      | one b h => exact ⟨b, _, rfl, h⟩
      | itself _ _ hone => contradiction
  | case6 a rest hlone hescape hany hone ih =>
    have ha := ne_escape hlone hescape
    simp only [matches_literal_iff, ih]
    constructor
    · rintro ⟨b, text, rfl, halike, h⟩
      exact .itself ha hany hone halike h
    · intro h
      cases h with
      | itself _ _ _ halike h => exact ⟨_, _, rfl, halike, h⟩
      | loneEscape | escaped | any | one => contradiction

/-- The normal form of a query stands for the texts that the query stands for. -/
theorem matches_clean_iff :
    Matches caseSensitive (tokens (clean query)) text ↔
      Matches caseSensitive (tokens query) text := by
  fun_induction clean query generalizing text with
  | case1 | case2 => exact Iff.rfl
  | case3 a rest ih => exact matches_cons_congr (fun _ => ih) _ _
  | case4 rest ih => exact ih.trans matches_any_any_iff.symm
  | case5 a rest hlone hescape _ ih =>
    have ha := ne_escape hlone hescape
    rw [tokens_cons ha, tokens_cons ha]
    exact matches_cons_congr (fun _ => ih) _ _

end

/-! ### Deciding -/

section

variable {caseSensitive : Bool} {item : Token} {items : List Token} {b : Char} {text : List Char}

theorem length_orLater (row : List Bool) : (orLater row).length = row.length := by
  induction row with
  | nil => rfl
  | cons b row ih => exact congrArg (· + 1) ih

/-- There is one entry for each suffix. -/
theorem length_suffixRow (caseSensitive : Bool) (text : List Char) (items : List Token) :
    (suffixRow caseSensitive text items).length = text.length + 1 := by
  induction items with
  | nil =>
    induction text with
    | nil => rfl
    | cons b text ih => exact congrArg (· + 1) ih
  | cons item items ih =>
    cases item with
    | any => rw [suffixRow, length_orLater, ih]
    | one | literal => simp [suffixRow, ih]

theorem exists_suffixRow (caseSensitive : Bool) (text : List Char) (items : List Token) :
    ∃ found row, suffixRow caseSensitive text items = found :: row :=
  List.exists_cons_of_length_eq_add_one (length_suffixRow caseSensitive text items)

/-- The row of a longer text is that of the shorter one with one more entry. -/
theorem exists_suffixRow_cons (caseSensitive : Bool) (b : Char) (text : List Char)
    (items : List Token) : ∃ found, suffixRow caseSensitive (b :: text) items =
      found :: suffixRow caseSensitive text items := by
  induction items with
  | nil => exact ⟨false, rfl⟩
  | cons item items ih =>
    obtain ⟨found, hfound⟩ := ih
    obtain ⟨next, row, hrow⟩ := exists_suffixRow caseSensitive text items
    cases item with
    | any =>
      rw [suffixRow, suffixRow, hfound]
      exact ⟨_, rfl⟩
    | one | literal =>
      simp only [suffixRow, hfound, hrow]
      exact ⟨_, rfl⟩

/-! How the search goes on from the front of the items and of the text. -/

theorem matchesText_nil : matchesText caseSensitive [] text = text.isEmpty := by
  cases text <;> rfl

theorem matchesText_any_nil :
    matchesText caseSensitive (.any :: items) [] = matchesText caseSensitive items [] := by
  obtain ⟨found, hfound⟩ := List.length_eq_one_iff.1 (length_suffixRow caseSensitive [] items)
  rw [matchesText, matchesText, suffixRow, hfound]
  exact Bool.or_false found

theorem matchesText_any_cons : matchesText caseSensitive (.any :: items) (b :: text) =
    (matchesText caseSensitive items (b :: text) ||
      matchesText caseSensitive (.any :: items) text) := by
  obtain ⟨found, hfound⟩ := exists_suffixRow_cons caseSensitive b text items
  rw [matchesText, matchesText, matchesText, suffixRow, suffixRow, hfound]
  rfl

theorem matchesText_cons_nil (h : item ≠ .any) :
    matchesText caseSensitive (item :: items) [] = false := by
  cases item with
  | any => contradiction
  | one | literal => rfl

theorem matchesText_cons_cons (h : item ≠ .any) :
    matchesText caseSensitive (item :: items) (b :: text) =
      (item.accepts caseSensitive b && matchesText caseSensitive items text) := by
  obtain ⟨found, hfound⟩ := exists_suffixRow_cons caseSensitive b text items
  obtain ⟨next, row, hrow⟩ := exists_suffixRow caseSensitive text items
  cases item with
  | any => contradiction
  | one | literal =>
    simp only [matchesText, suffixRow, hfound, hrow]
    rfl

/-- A run of characters may be empty or one longer. -/
theorem matches_any_cons_iff : Matches caseSensitive (.any :: items) (b :: text) ↔
    Matches caseSensitive items (b :: text) ∨ Matches caseSensitive (.any :: items) text := by
  simp only [matches_any_iff]
  constructor
  · rintro ⟨run, rest, heq, h⟩
    cases run with
    | nil => exact .inl (heq ▸ h)
    | cons c run =>
      cases heq
      exact .inr ⟨run, rest, rfl, h⟩
  · rintro (h | ⟨run, rest, rfl, h⟩)
    · exact ⟨[], b :: text, rfl, h⟩
    · exact ⟨b :: run, rest, rfl, h⟩

/-- The search finds a match exactly when the items stand for the text. -/
theorem matchesText_iff : matchesText caseSensitive items text = true ↔
    Matches caseSensitive items text := by
  induction items generalizing text with
  | nil => rw [matchesText_nil, matches_nil_iff, List.isEmpty_iff]
  | cons item items ih =>
    cases item with
    | any =>
      induction text with
      | nil => simp [matchesText_any_nil, matches_any_iff, ih]
      | cons b text ih' =>
        rw [matchesText_any_cons, matches_any_cons_iff, Bool.or_eq_true, ih, ih']
    | one =>
      rw [matches_one_iff]
      cases text with
      | nil => simp [matchesText_cons_nil]
      | cons b text => simp [matchesText_cons_cons, Token.accepts, ih]
    | literal a =>
      rw [matches_literal_iff]
      cases text with
      | nil => simp [matchesText_cons_nil]
      | cons b text => simp [matchesText_cons_cons, Token.accepts, agrees_iff, ih]

end

/-! ### Messages -/

/-- The message is read as a text that the query stands for. -/
def Admits (q : Query) (message : Bytes) : Prop :=
  ∃ text, Utf8.ReadsAs message text ∧ Denotes q.caseSensitive q.text.toList text

theorem matchesMessage_iff_denotes {q : Query} {message : Bytes} :
    q.matchesMessage message = true ↔
      Denotes q.caseSensitive q.text.toList (Utf8.lossy message) := by
  rw [matchesMessage, matchesText_iff, compile, matches_clean_iff, matches_tokens_iff]

theorem matchesMessage_iff_admits {q : Query} {message : Bytes} :
    q.matchesMessage message = true ↔ q.Admits message := by
  simp only [Admits, Utf8.readsAs_iff, exists_eq_left, matchesMessage_iff_denotes]

instance (q : Query) : DecidablePred q.Admits := fun _ =>
  decidable_of_iff _ matchesMessage_iff_admits

end LogCodec.Query
