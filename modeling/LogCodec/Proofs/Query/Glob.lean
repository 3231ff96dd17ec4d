import LogCodec.Proofs.Query.Language
import LogCodec.Proofs.Text.Lossy
import LogCodec.Query.Glob
import Mathlib.Data.List.Chain

/-! # Queries matched as globs

    Every query is translated to a glob that says the same, so a library of globs
    that does what it documents reads it and finds the texts that the query stands
    for.

    - `Glob.Writes`: the part of the syntax of globs that translations are in.
    - `Glob.Documented`: what is documented of a library.
    - `Query.separated_clean`: there is no run of `*` in the normal form of a query.
    - `Query.writes_toGlob`: the translation has the items of the normal form. -/

namespace LogCodec

/-! ### What libraries document -/

namespace Glob

/-- The glob has these items.  A `*` is followed by no other, and brackets stand around
    one character that would have a meaning of its own without them. -/
inductive Writes : List Char → List Query.Token → Prop where
  | nil : Writes [] []
  | any {glob : List Char} {items : List Query.Token} (hnext : glob.head? ≠ some '*') :
      Writes glob items → Writes ('*' :: glob) (.any :: items)
  | one {glob : List Char} {items : List Query.Token} :
      Writes glob items → Writes ('?' :: glob) (.one :: items)
  | bracketed {c : Char} {glob : List Char} {items : List Query.Token} (hc : isSpecial c = true) :
      Writes glob items → Writes ('[' :: c :: ']' :: glob) (.literal c :: items)
  | bare {c : Char} {glob : List Char} {items : List Query.Token} (hc : isSpecial c = false) :
      Writes glob items → Writes (c :: glob) (.literal c :: items)

/-- What is documented of a library of globs. -/
structure Documented (glob : Glob) : Prop where
  /-- Characters with a meaning of their own are escaped by brackets. -/
  escape_special : ∀ c, isSpecial c = true → glob.escape [c] = ['[', c, ']']
  /-- Other characters are not escaped. -/
  escape_bare : ∀ c, isSpecial c = false → glob.escape [c] = [c]
  /-- Such a glob is read, and matches what its items stand for, if neither separators
      nor dots are matched by themselves only. -/
  parse_of_writes : ∀ text items, Writes text items → ∃ pattern, glob.parse text = .ok pattern ∧
    ∀ (options : Options) (s : List Char), options.literalSeparator = false →
      options.literalLeadingDot = false →
      (glob.accepts pattern options s = true ↔ Query.Matches options.caseSensitive items s)

/-- The items that are written are read. -/
theorem items_of_writes {text : List Char} {written : List Query.Token}
    (h : Writes text written) : items text = .ok written := by
  induction h with
  | nil => rfl
  | any hnext _ ih =>
    rw [items, ih]
    · rfl
    · rintro rest rfl
      exact hnext rfl
  | one _ ih =>
    rw [items, ih]
    rfl
  | bracketed hc _ ih =>
    rw [items, if_pos hc, ih]
    rfl
  | @bare c glob _ hc _ ih =>
    have hany : c ≠ '*' := by
      rintro rfl
      cases hc
    have hone : c ≠ '?' := by
      rintro rfl
      cases hc
    have hopen : c ≠ '[' := by
      rintro rfl
      cases hc
    rw [items, ih]
    · rfl
    all_goals intros; contradiction

theorem plain_documented : plain.Documented where
  escape_special c hc := by simp [plain, bracket, hc]
  escape_bare c hc := by simp [plain, bracket, hc]
  parse_of_writes text written h :=
    ⟨written, items_of_writes h, fun _ _ _ _ => Query.matchesText_iff⟩

end Glob

/-! ### Translations -/

namespace Query

/-- No two runs of characters stand side by side. -/
def Separated (items : List Token) : Prop :=
  items.IsChain fun a b => a = .any → b ≠ .any

theorem separated_cons_iff {item : Token} {items : List Token} :
    Separated (item :: items) ↔
      (item = .any → items.head? ≠ some .any) ∧ Separated items := by
  refine List.isChain_cons.trans (and_congr_left' ⟨?_, ?_⟩)
  · rintro h hitem hhead
    exact h _ hhead hitem rfl
  · rintro h next hnext hitem rfl
    exact h hitem hnext

theorem head?_tokens_iff {query : List Char} :
    (tokens query).head? = some .any ↔ query.head? = some '*' := by
  fun_cases tokens query with
  | case1 | case2 | case3 | case4 | case5 => simp
  | case6 c rest _ _ hany =>
    simp only [List.head?_cons, Option.some.injEq, reduceCtorEq, false_iff]
    exact hany

/-- The normal form starts with a `*` if the query does. -/
theorem head?_clean_iff {query : List Char} :
    (clean query).head? = some '*' ↔ query.head? = some '*' := by
  fun_induction clean query with
  | case1 | case2 | case3 | case5 => simp
  | case4 rest ih => exact ih

/-- There are no two runs of characters side by side in the normal form of a query. -/
theorem separated_clean (query : List Char) : Separated (tokens (clean query)) := by
  fun_induction clean query with
  | case1 | case2 => exact .nil
  | case3 c rest ih => exact separated_cons_iff.2 ⟨fun h => Token.noConfusion h, ih⟩
  | case4 rest ih => exact ih
  | case5 c rest hlone hescape hrun ih =>
    rw [tokens_cons (ne_escape hlone hescape)]
    refine separated_cons_iff.2 ⟨fun hany hhead => ?_, ih⟩
    -- otherwise the query has two `*` here
    have hc : c = '*' := ofChar_eq_any_iff.1 hany
    obtain ⟨rest', rfl⟩ : ∃ rest', rest = '*' :: rest' :=
      List.head?_eq_some_iff.1 (head?_clean_iff.1 (head?_tokens_iff.1 hhead))
    exact hrun rest' hc rfl

section

variable {glob : Glob} (hglob : glob.Documented)

include hglob

/-- An escaped character is an item of the glob. -/
theorem writes_escape (c : Char) {text : List Char} {items : List Token}
    (h : Glob.Writes text items) : Glob.Writes (glob.escape [c] ++ text) (.literal c :: items) := by
  cases hc : Glob.isSpecial c with
  | true =>
    rw [hglob.escape_special c hc]
    exact .bracketed hc h
  | false =>
    rw [hglob.escape_bare c hc]
    exact .bare hc h

/-- A translation starts with a `*` only if the query does. -/
theorem head?_of_translate {query : List Char} :
    (translate glob query).head? = some '*' → query.head? = some '*' := by
  have hescape (c : Char) (text : List Char) : (glob.escape [c] ++ text).head? ≠ some '*' := by
    cases hc : Glob.isSpecial c with
    | true => simp [hglob.escape_special c hc]
    | false =>
      rw [hglob.escape_bare c hc]
      rintro ⟨⟩
      cases hc
  fun_cases translate glob query with
  | case1 | case2 | case5 => simp
  | case3 c rest => exact fun h => absurd h (hescape c _)
  | case4 => exact fun _ => rfl
  | case6 c rest => exact fun h => absurd h (hescape c _)

/-- A query without runs of `*` is translated item by item. -/
theorem writes_translate {query : List Char} (h : Separated (tokens query)) :
    Glob.Writes (translate glob query) (tokens query) := by
  fun_induction translate glob query with
  | case1 | case2 => exact .nil
  | case3 c rest ih => exact writes_escape hglob c (ih (separated_cons_iff.1 h).2)
  | case4 rest ih =>
    obtain ⟨hhead, hrest⟩ := separated_cons_iff.1 h
    exact .any (fun hnext => hhead rfl (head?_tokens_iff.2 (head?_of_translate hglob hnext)))
      (ih hrest)
  | case5 rest ih => exact .one (ih (separated_cons_iff.1 h).2)
  | case6 c rest hlone hescape hany hone ih =>
    rw [tokens_cons (ne_escape hlone hescape), Token.ofChar, if_neg hany, if_neg hone] at h ⊢
    exact writes_escape hglob c (ih (separated_cons_iff.1 h).2)

/-- The glob of a query has the items of its normal form. -/
theorem writes_toGlob (query : List Char) :
    Glob.Writes (toGlob glob query) (tokens (clean query)) :=
  writes_translate hglob (separated_clean query)

/-- A library that does what it documents reads the glob of every query. -/
theorem exists_compileBy (q : Query) : ∃ pattern, q.compileBy glob = .ok pattern ∧
    ∀ text, glob.accepts pattern q.options text = true ↔
      Matches q.caseSensitive q.compile text := by
  obtain ⟨pattern, hparse, haccepts⟩ :=
    hglob.parse_of_writes _ _ (writes_toGlob hglob q.text.toList)
  refine ⟨pattern, ?_, fun text => haccepts q.options text rfl rfl⟩
  rw [compileBy, hparse]
  rfl

/-- **What a query matches.**  Whatever the query and the message, matching does not
    fail, and it finds a match exactly when the query stands for all of the text that
    the message is read as.  The message is read as this one text, in which U+FFFD
    stands for each maximal invalid part. -/
theorem matchesBy_eq_ok (q : Query) (message : Bytes) :
    q.matchesBy glob message = .ok (q.matchesMessage message) ∧
      (q.matchesMessage message = true ↔
        Denotes q.caseSensitive q.text.toList (Utf8.lossy message)) ∧
      ∀ text, Utf8.ReadsAs message text ↔ text = Utf8.lossy message := by
  obtain ⟨pattern, hcompile, haccepts⟩ := exists_compileBy hglob q
  have hfound : glob.accepts pattern q.options (Utf8.lossy message) =
      q.matchesMessage message := by
    rw [Bool.eq_iff_iff, haccepts, matchesMessage, matchesText_iff]
  refine ⟨?_, matchesMessage_iff_denotes, fun text => Utf8.readsAs_iff⟩
  rw [matchesBy, hcompile, ← hfound]
  rfl

end

/-- Brackets stand for themselves, and the second of these is escaped for globs.  Between
    them the message has a part that is not valid. -/
theorem matchesBy_eq_ok_brackets :
    Glob.plain.Documented ∧
      (⟨"[É?]\\***e\\", false⟩ : Query).matchesBy Glob.plain
        [0x5B, 0xC3, 0x89, 0xE2, 0x82, 0x5D, 0x2A, 0x45] = .ok true ∧
      Denotes false "[É?]\\***e\\".toList ['[', 'É', Utf8.replacement, ']', '*', 'E'] := by
  obtain ⟨hmatches, hdenotes, hreads⟩ := matchesBy_eq_ok Glob.plain_documented
    ⟨"[É?]\\***e\\", false⟩ [0x5B, 0xC3, 0x89, 0xE2, 0x82, 0x5D, 0x2A, 0x45]
  have hfound : (⟨"[É?]\\***e\\", false⟩ : Query).matchesMessage
      [0x5B, 0xC3, 0x89, 0xE2, 0x82, 0x5D, 0x2A, 0x45] = true := by
    decide +kernel
  have hlossy : Utf8.lossy [0x5B, 0xC3, 0x89, 0xE2, 0x82, 0x5D, 0x2A, 0x45] =
      ['[', 'É', Utf8.replacement, ']', '*', 'E'] := by
    decide +kernel
  refine ⟨Glob.plain_documented, ?_, ?_⟩
  · rw [hmatches, hfound]
  · rw [← hlossy]
    exact hdenotes.1 hfound

end Query

end LogCodec
