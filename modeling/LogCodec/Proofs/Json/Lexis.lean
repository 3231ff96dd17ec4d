import LogCodec.Proofs.Json.Tokens
import Mathlib.Data.List.TakeWhile

/-! # The texts of a list of tokens

    The automaton that collects tokens is held to a grammar that does not mention it.

    * `Spells`: how one character of a string may be written.  `Written`: how all of them may.
    * `Lexes`: the texts that a list of tokens may be written as.
    * `ofText?_eq_some_iff`: the automaton collects the tokens of a text that has some.
    * `IsText`, `parse?_eq_some_iff`: which texts are read as a value. -/

namespace LogCodec.Json

namespace Token

/-! ### Grammar -/

/-- The number that follows from `value` by hexadecimal digits. -/
def unitFrom? (value : Nat) (digits : List Char) : Option Nat :=
  digits.foldlM (fun value c => (hexValue? c).map (value * 16 + ·)) value

/-- Four hexadecimal digits and the code unit that they are. -/
def IsUnit (digits : List Char) (n : Nat) : Prop := digits.length = 4 ∧ unitFrom? 0 digits = some n

/-- A way to write a character inside of a string. -/
inductive Spells : List Char → Char → Prop
  /-- As it is, unless it is a quote, a backslash or a control character. -/
  | plain {c : Char} : c ≠ '"' → c ≠ '\\' → ¬c < ' ' → Spells [c] c
  /-- An escape of one letter. -/
  | escape {name c : Char} : ofEscape? name = some c → Spells ['\\', name] c
  /-- A code unit that is not a surrogate. -/
  | unit {digits : List Char} {n : Nat} : IsUnit digits n → ¬(0xD800 ≤ n ∧ n ≤ 0xDFFF) →
      Spells ('\\' :: 'u' :: digits) (Char.ofNat n)
  /-- A high surrogate and a low one. -/
  | pair {digits digits' : List Char} {high low : Nat} :
      IsUnit digits high → 0xD800 ≤ high → high ≤ 0xDBFF →
      IsUnit digits' low → 0xDC00 ≤ low → low ≤ 0xDFFF →
      Spells ('\\' :: 'u' :: (digits ++ '\\' :: 'u' :: digits'))
        (Char.ofNat (0x10000 + (high - 0xD800) * 0x400 + (low - 0xDC00)))

/-- A way to write the characters of a string. -/
inductive Written : List Char → List Char → Prop
  | nil : Written [] []
  | cons {source rest chars : List Char} {c : Char} :
      Spells source c → Written rest chars → Written (source ++ rest) (c :: chars)

/-- A way to write a list of tokens.  A word reaches as far as it can. -/
inductive Lexes : List Char → List Token → Prop
  | nil : Lexes [] []
  | space {c : Char} {text : List Char} {ts : List Token} :
      isSpace c = true → Lexes text ts → Lexes (c :: text) ts
  | punctuation {c : Char} {t : Token} {text : List Char} {ts : List Token} :
      ofPunctuation? c = some t → Lexes text ts → Lexes (c :: text) (t :: ts)
  | string {source chars text : List Char} {ts : List Token} :
      Written source chars → Lexes text ts →
      Lexes ('"' :: (source ++ '"' :: text)) (.string chars :: ts)
  | word {word text : List Char} {t : Token} {ts : List Token} :
      (∀ c ∈ word, isWordChar c = true) → (∀ c ∈ text.head?, isWordChar c = false) →
      ofWord? word = some t → Lexes text ts → Lexes (word ++ text) (t :: ts)

/-! ### What the automaton collects from a state on -/

/-- The tokens of a text, from some state on. -/
def tokensFrom? (s : Scan) (text : List Char) : Option (List Token) :=
  (text.foldlM step s).bind finish

theorem tokensFrom?_cons (s : Scan) (c : Char) (text : List Char) :
    tokensFrom? s (c :: text) = (step s c).bind fun s' => tokensFrom? s' text := by
  rw [tokensFrom?, List.foldlM_cons, Option.bind_eq_bind, Option.bind_assoc]
  rfl

theorem tokensFrom?_cons_of_some {s s' : Scan} {c : Char} (h : step s c = some s')
    (text : List Char) : tokensFrom? s (c :: text) = tokensFrom? s' text := by
  rw [tokensFrom?_cons, h, Option.bind_some]

theorem tokensFrom?_append_of_some {s s' : Scan} {front : List Char}
    (h : front.foldlM step s = some s') (text : List Char) :
    tokensFrom? s (front ++ text) = tokensFrom? s' text := by
  rw [tokensFrom?, foldlM_append_of_some h, tokensFrom?]

/-- Where the text cannot end, there is one more character. -/
theorem step_of_tokensFrom? {s : Scan} {text : List Char} {ts : List Token}
    (hs : finish s = none) (h : tokensFrom? s text = some ts) :
    ∃ c rest s', text = c :: rest ∧ step s c = some s' ∧ tokensFrom? s' rest = some ts := by
  cases text with
  | nil =>
    change finish s = some ts at h
    rw [hs] at h
    cases h
  | cons c rest =>
    rw [tokensFrom?_cons] at h
    obtain ⟨s', hs', h⟩ := Option.bind_eq_some_iff.1 h
    exact ⟨c, rest, s', rfl, hs', h⟩

section

variable {tokens ts : List Token} {chars text : List Char}

/-! ### Code units -/

theorem foldlM_unit {digits : List Char} {high : Option Nat} {missing value n : Nat}
    (hlength : digits.length = missing + 1) (hn : unitFrom? value digits = some n) :
    digits.foldlM step ⟨tokens, .unit chars high (missing + 1) value⟩ =
      (endUnit chars high n).map fun mode => ⟨tokens, mode⟩ := by
  induction digits generalizing missing value with
  | nil => cases hlength
  | cons c digits ih =>
    rw [unitFrom?, List.foldlM_cons, Option.bind_eq_bind] at hn
    obtain ⟨value', hvalue', hn⟩ := Option.bind_eq_some_iff.1 hn
    obtain ⟨d, hd, rfl⟩ := Option.map_eq_some_iff.1 hvalue'
    cases missing with
    | zero =>
      obtain rfl : digits = [] := List.eq_nil_of_length_eq_zero (Nat.succ.inj hlength)
      obtain rfl := Option.some.inj hn
      simp [step, hd]
    | succ missing =>
      have hstep : step ⟨tokens, .unit chars high (missing + 1 + 1) value⟩ c =
          some ⟨tokens, .unit chars high (missing + 1) (value * 16 + d)⟩ := by
        simp [step, hd]
      rw [foldlM_cons_of_some hstep]
      exact ih (Nat.succ.inj hlength) hn

/-- Where the tokens of a text go on with a code unit, the text begins with one. -/
theorem unit_of_tokensFrom? {high : Option Nat} {missing value : Nat}
    (h : tokensFrom? ⟨tokens, .unit chars high (missing + 1) value⟩ text = some ts) :
    ∃ digits rest n mode, text = digits ++ rest ∧ digits.length = missing + 1 ∧
      unitFrom? value digits = some n ∧ endUnit chars high n = some mode ∧
      tokensFrom? ⟨tokens, mode⟩ rest = some ts := by
  induction missing generalizing value text with
  | zero =>
    obtain ⟨c, rest, s, rfl, hs, hrest⟩ := step_of_tokensFrom? rfl h
    obtain ⟨d, hd, hs⟩ := Option.bind_eq_some_iff.1 hs
    rw [if_pos rfl] at hs
    obtain ⟨mode, hmode, rfl⟩ := Option.map_eq_some_iff.1 hs
    refine ⟨[c], rest, value * 16 + d, mode, rfl, rfl, ?_, hmode, hrest⟩
    simp [unitFrom?, hd]
  | succ missing ih =>
    obtain ⟨c, rest, s, rfl, hs, hrest⟩ := step_of_tokensFrom? rfl h
    obtain ⟨d, hd, hs⟩ := Option.bind_eq_some_iff.1 hs
    rw [if_neg (by omega)] at hs
    obtain rfl := Option.some.inj hs
    obtain ⟨digits, rest, n, mode, rfl, hlength, hn, hmode, hrest⟩ := ih hrest
    refine ⟨c :: digits, rest, n, mode, rfl, congrArg (· + 1) hlength, ?_, hmode, hrest⟩
    rw [unitFrom?] at hn ⊢
    simp [hd, hn]

/-! ### Strings -/

/-- A character is read from each way to write it. -/
theorem foldlM_spells {source : List Char} {c : Char} (h : Spells source c) :
    source.foldlM step ⟨tokens, .string chars⟩ = some ⟨tokens, .string (c :: chars)⟩ := by
  have hunit (high : Option Nat) (front : List Char) {s : Scan}
      (hfront : front.foldlM step s = some ⟨tokens, .unit chars high 4 0⟩) {digits : List Char}
      {n : Nat} (hn : IsUnit digits n) :
      (front ++ digits).foldlM step s = (endUnit chars high n).map fun mode => ⟨tokens, mode⟩ := by
    rw [foldlM_append_of_some hfront, foldlM_unit hn.1 hn.2]
  cases h with
  | plain hquote hbackslash hcontrol => simp [step, hquote, hbackslash, hcontrol]
  | @escape name _ hname =>
    have hne : name ≠ 'u' := by
      rintro rfl
      cases hname
    simp [step, hne, hname]
  | unit hn hsurrogate =>
    have hend := hunit none ['\\', 'u'] (s := ⟨tokens, .string chars⟩) rfl hn
    rw [endUnit, if_neg (by omega), if_neg (by omega)] at hend
    exact hend
  | @pair digits _ _ _ hhigh hge hle hlow hge' hle' =>
    have hfirst := hunit none ['\\', 'u'] (s := ⟨tokens, .string chars⟩) rfl hhigh
    rw [endUnit, if_pos ⟨hge, hle⟩] at hfirst
    have hsecond := hunit (some _) (['\\', 'u'] ++ digits ++ ['\\', 'u'])
      (by rw [foldlM_append_of_some hfirst]; rfl) hlow
    rw [endUnit, if_pos ⟨hge', hle'⟩] at hsecond
    simpa using hsecond

theorem foldlM_written {source text : List Char} (h : Written source text) :
    source.foldlM step ⟨tokens, .string chars⟩ =
      some ⟨tokens, .string (text.reverse ++ chars)⟩ := by
  induction h generalizing chars with
  | nil => rfl
  | cons hspells _ ih =>
    rw [foldlM_append_of_some (foldlM_spells hspells), ih, List.reverse_cons, List.append_assoc,
      List.singleton_append]

/-- A high surrogate is followed by a low one. -/
theorem low_of_tokensFrom? {high : Nat}
    (h : tokensFrom? ⟨tokens, .pair chars high⟩ text = some ts) :
    ∃ digits rest low, text = '\\' :: 'u' :: (digits ++ rest) ∧ IsUnit digits low ∧
      0xDC00 ≤ low ∧ low ≤ 0xDFFF ∧
      tokensFrom? ⟨tokens,
        .string (Char.ofNat (0x10000 + (high - 0xD800) * 0x400 + (low - 0xDC00)) :: chars)⟩
        rest = some ts := by
  obtain ⟨_, text, s, rfl, hs, h⟩ := step_of_tokensFrom? rfl h
  obtain ⟨rfl, hs⟩ := Option.ite_none_right_eq_some.1 hs
  obtain rfl := Option.some.inj hs
  obtain ⟨_, text, s, rfl, hs, h⟩ := step_of_tokensFrom? rfl h
  obtain ⟨rfl, hs⟩ := Option.ite_none_right_eq_some.1 hs
  obtain rfl := Option.some.inj hs
  obtain ⟨digits, rest, low, mode, rfl, hlength, hlow, hmode, hrest⟩ := unit_of_tokensFrom? h
  obtain ⟨⟨hge, hle⟩, hmode⟩ := Option.ite_none_right_eq_some.1 hmode
  obtain rfl := Option.some.inj hmode
  exact ⟨digits, rest, low, rfl, ⟨hlength, hlow⟩, hge, hle, hrest⟩

/-- After a backslash, the rest of an escape comes next. -/
theorem escape_of_tokensFrom? (h : tokensFrom? ⟨tokens, .escape chars⟩ text = some ts) :
    ∃ source c rest, text = source ++ rest ∧ Spells ('\\' :: source) c ∧
      tokensFrom? ⟨tokens, .string (c :: chars)⟩ rest = some ts := by
  obtain ⟨name, text, s, rfl, hs, h⟩ := step_of_tokensFrom? rfl h
  simp only [step] at hs
  by_cases hname : name = 'u'
  · rw [if_pos hname] at hs
    obtain rfl := Option.some.inj hs
    obtain ⟨digits, rest, n, mode, rfl, hlength, hn, hmode, hrest⟩ := unit_of_tokensFrom? h
    rw [endUnit] at hmode
    split at hmode
    · rename_i hhigh
      obtain rfl := Option.some.inj hmode
      obtain ⟨digits', rest, low, rfl, hlow, hge, hle, hrest⟩ := low_of_tokensFrom? hrest
      refine ⟨'u' :: (digits ++ '\\' :: 'u' :: digits'), _, rest, by simp [hname],
        .pair ⟨hlength, hn⟩ hhigh.1 hhigh.2 hlow hge hle, hrest⟩
    · obtain ⟨hlow, hmode⟩ := Option.ite_none_left_eq_some.1 hmode
      obtain rfl := Option.some.inj hmode
      exact ⟨'u' :: digits, _, rest, by rw [hname]; rfl, .unit ⟨hlength, hn⟩ (by omega), hrest⟩
  · rw [if_neg hname] at hs
    obtain ⟨c, hc, rfl⟩ := Option.map_eq_some_iff.1 hs
    exact ⟨[name], c, text, rfl, .escape hc, h⟩

/-- In a string, its end or a character comes next. -/
theorem next_of_tokensFrom? (h : tokensFrom? ⟨tokens, .string chars⟩ text = some ts) :
    (∃ rest, text = '"' :: rest ∧
      tokensFrom? ⟨.string chars.reverse :: tokens, .between⟩ rest = some ts) ∨
    ∃ source c rest, text = source ++ rest ∧ Spells source c ∧
      tokensFrom? ⟨tokens, .string (c :: chars)⟩ rest = some ts := by
  obtain ⟨c, text, s, rfl, hs, h⟩ := step_of_tokensFrom? rfl h
  simp only [step] at hs
  by_cases hquote : c = '"'
  · rw [if_pos hquote] at hs
    obtain rfl := Option.some.inj hs
    exact .inl ⟨text, by rw [hquote], h⟩
  rw [if_neg hquote] at hs
  right
  by_cases hbackslash : c = '\\'
  · rw [if_pos hbackslash] at hs
    obtain rfl := Option.some.inj hs
    obtain ⟨source, c', rest, rfl, hspells, hrest⟩ := escape_of_tokensFrom? h
    exact ⟨'\\' :: source, c', rest, by rw [hbackslash]; rfl, hspells, hrest⟩
  · rw [if_neg hbackslash] at hs
    obtain ⟨hcontrol, hs⟩ := Option.ite_none_left_eq_some.1 hs
    obtain rfl := Option.some.inj hs
    exact ⟨[c], c, text, rfl, .plain hquote hbackslash hcontrol, h⟩

theorem Spells.length_pos {source : List Char} {c : Char} (h : Spells source c) :
    0 < source.length := by
  cases h <;> exact Nat.succ_pos _

/-- In a string, all of its characters and its end come next. -/
theorem string_of_tokensFrom? (h : tokensFrom? ⟨tokens, .string chars⟩ text = some ts) :
    ∃ source more rest, text = source ++ '"' :: rest ∧ Written source more ∧
      tokensFrom? ⟨.string (chars.reverse ++ more) :: tokens, .between⟩ rest = some ts := by
  induction hlength : text.length using Nat.strong_induction_on generalizing text chars with
  | _ n ih =>
    rcases next_of_tokensFrom? h with ⟨rest, rfl, hrest⟩ | ⟨source, c, rest, rfl, hspells, hrest⟩
    · exact ⟨[], [], rest, rfl, .nil, by rwa [List.append_nil]⟩
    · have hpos := hspells.length_pos
      rw [List.length_append] at hlength
      obtain ⟨source', more, rest, rfl, hwritten, hrest⟩ :=
        ih rest.length (by omega) hrest rfl
      refine ⟨source ++ source', c :: more, rest, by rw [List.append_assoc],
        .cons hspells hwritten, ?_⟩
      rwa [List.reverse_cons, List.append_assoc, List.singleton_append] at hrest

/-! ### Words -/

/-- A word ends where it is not followed by one of its characters. -/
theorem tokensFrom?_word (tokens : List Token) (chars text : List Char) :
    tokensFrom? ⟨tokens, .word chars⟩ text =
      (endWord tokens ((text.takeWhile isWordChar).reverse ++ chars)).bind fun tokens' =>
        tokensFrom? ⟨tokens', .between⟩ (text.dropWhile isWordChar) := by
  induction text generalizing chars with
  | nil =>
    show (endWord tokens chars).map List.reverse = _
    rw [Option.map_eq_bind]
    rfl
  | cons c text ih =>
    by_cases hc : isWordChar c = true
    · have hstep : step ⟨tokens, .word chars⟩ c = some ⟨tokens, .word (c :: chars)⟩ := if_pos hc
      rw [List.takeWhile_cons_of_pos hc, List.dropWhile_cons_of_pos hc, List.reverse_cons,
        List.append_assoc, List.singleton_append, ← ih, tokensFrom?_cons_of_some hstep]
    · rw [List.takeWhile_cons_of_neg hc, List.dropWhile_cons_of_neg hc, tokensFrom?_cons]
      simp only [step, if_neg hc]
      rw [Option.bind_assoc]
      simp only [tokensFrom?_cons]
      rfl

theorem startToken_of_isWordChar {c : Char} (h : isWordChar c = true) (tokens : List Token) :
    startToken tokens c = some ⟨tokens, .word [c]⟩ := by
  have hspace : ¬isSpace c = true := by
    intro hspace
    simp only [isSpace, Bool.or_eq_true, beq_iff_eq] at hspace
    rcases hspace with ((rfl | rfl) | rfl) | rfl <;> revert h <;> decide
  have hquote : c ≠ '"' := by
    rintro rfl
    revert h
    decide
  rw [startToken, if_neg hspace, if_neg hquote, if_pos h]

theorem startToken_of_ofPunctuation? {c : Char} {t : Token} (h : ofPunctuation? c = some t)
    (tokens : List Token) : startToken tokens c = some ⟨t :: tokens, .between⟩ := by
  unfold ofPunctuation? at h
  split at h
  case h_7 => cases h
  all_goals
    obtain rfl := Option.some.inj h
    rfl

theorem ofWord?_nil : ofWord? [] = none := by decide

/-! ### Texts -/

theorem tokensFrom?_between (tokens : List Token) (c : Char) (text : List Char) :
    tokensFrom? ⟨tokens, .between⟩ (c :: text) =
      (startToken tokens c).bind fun s => tokensFrom? s text :=
  tokensFrom?_cons ..

/-- The tokens of a text are collected. -/
theorem tokensFrom?_of_lexes (h : Lexes text ts) (tokens : List Token) :
    tokensFrom? ⟨tokens, .between⟩ text = some (tokens.reverse ++ ts) := by
  induction h generalizing tokens with
  | nil =>
    rw [List.append_nil]
    rfl
  | space hc _ ih => rw [tokensFrom?_between, startToken, if_pos hc, Option.bind_some, ih]
  | punctuation hc _ ih =>
    rw [tokensFrom?_between, startToken_of_ofPunctuation? hc, Option.bind_some, ih,
      List.reverse_cons, List.append_assoc, List.singleton_append]
  | @string source chars text _ hwritten _ ih =>
    have hopen : startToken tokens '"' = some ⟨tokens, .string []⟩ := rfl
    have hclose : step ⟨tokens, .string (chars.reverse ++ [])⟩ '"' =
        some ⟨.string chars :: tokens, .between⟩ := by
      simp [step]
    rw [tokensFrom?_between, hopen, Option.bind_some,
      tokensFrom?_append_of_some (foldlM_written hwritten), tokensFrom?_cons_of_some hclose, ih,
      List.reverse_cons, List.append_assoc, List.singleton_append]
  | @word word text t _ hword hrest ht _ ih =>
    have htake : text.takeWhile isWordChar = [] ∧ text.dropWhile isWordChar = text := by
      cases text with
      | nil => exact ⟨rfl, rfl⟩
      | cons c text =>
        have hc : ¬isWordChar c = true := by simp [hrest c rfl]
        exact ⟨List.takeWhile_cons_of_neg hc, List.dropWhile_cons_of_neg hc⟩
    cases word with
    | nil =>
      rw [ofWord?_nil] at ht
      cases ht
    | cons c more =>
      obtain ⟨hc, hmore⟩ := List.forall_mem_cons.1 hword
      have hend : endWord tokens (more.reverse ++ [c]) = some (t :: tokens) := by
        rw [endWord, List.reverse_append, List.reverse_reverse]
        exact Option.map_eq_some_iff.2 ⟨t, ht, rfl⟩
      rw [List.cons_append, tokensFrom?_between, startToken_of_isWordChar hc, Option.bind_some,
        tokensFrom?_word, List.takeWhile_append_of_pos hmore, List.dropWhile_append_of_pos hmore,
        htake.1, htake.2, List.append_nil, hend, Option.bind_some, ih, List.reverse_cons,
        List.append_assoc, List.singleton_append]

/-- What is collected are the tokens of the text. -/
theorem lexes_of_tokensFrom? (h : tokensFrom? ⟨tokens, .between⟩ text = some ts) :
    ∃ more, ts = tokens.reverse ++ more ∧ Lexes text more := by
  induction hlength : text.length using Nat.strong_induction_on generalizing text tokens with
  | _ n ih =>
    cases text with
    | nil => exact ⟨[], by rw [List.append_nil]; exact (Option.some.inj h).symm, .nil⟩
    | cons c text =>
      rw [List.length_cons] at hlength
      -- what comes behind the next token adds to it
      have hnext {t : Token} {rest : List Char} (hlt : rest.length < n)
          (hrest : tokensFrom? ⟨t :: tokens, .between⟩ rest = some ts) :
          ∃ more, ts = tokens.reverse ++ t :: more ∧ Lexes rest more := by
        obtain ⟨more, hts, hlexes⟩ := ih rest.length hlt hrest rfl
        rw [List.reverse_cons, List.append_assoc, List.singleton_append] at hts
        exact ⟨more, hts, hlexes⟩
      rw [tokensFrom?_between] at h
      obtain ⟨s, hs, h⟩ := Option.bind_eq_some_iff.1 h
      by_cases hspace : isSpace c = true
      · rw [startToken, if_pos hspace] at hs
        obtain rfl := Option.some.inj hs
        obtain ⟨more, hts, hlexes⟩ := ih text.length (by omega) h rfl
        exact ⟨more, hts, .space hspace hlexes⟩
      rw [startToken, if_neg hspace] at hs
      by_cases hquote : c = '"'
      · rw [if_pos hquote] at hs
        obtain rfl := Option.some.inj hs
        obtain ⟨source, chars, rest, rfl, hwritten, hrest⟩ := string_of_tokensFrom? h
        rw [List.length_append, List.length_cons] at hlength
        obtain ⟨more, hts, hlexes⟩ := hnext (by omega) hrest
        rw [hquote]
        exact ⟨_, hts, .string hwritten hlexes⟩
      rw [if_neg hquote] at hs
      by_cases hword : isWordChar c = true
      · rw [if_pos hword] at hs
        obtain rfl := Option.some.inj hs
        rw [tokensFrom?_word] at h
        obtain ⟨tokens', hend, h⟩ := Option.bind_eq_some_iff.1 h
        obtain ⟨t, ht, rfl⟩ := Option.map_eq_some_iff.1 hend
        rw [List.reverse_append, List.reverse_reverse] at ht
        obtain ⟨more, hts, hlexes⟩ :=
          hnext (by have := text.length_dropWhile_le isWordChar; omega) h
        refine ⟨t :: more, hts, ?_⟩
        rw [← text.takeWhile_append_dropWhile (p := isWordChar), ← List.cons_append]
        refine .word (List.forall_mem_cons.2 ⟨hword, fun _ => List.mem_takeWhile_imp⟩) ?_ ht hlexes
        intro c' hc'
        have hstop := text.head?_dropWhile_not isWordChar
        rw [hc'] at hstop
        exact hstop
      · rw [if_neg hword] at hs
        obtain ⟨t, ht, rfl⟩ := Option.map_eq_some_iff.1 hs
        obtain ⟨more, hts, hlexes⟩ := hnext (by omega) h
        exact ⟨t :: more, hts, .punctuation ht hlexes⟩

end

/-- **The automaton collects the tokens of a text.** -/
theorem ofText?_eq_some_iff {text : List Char} {ts : List Token} :
    ofText? text = some ts ↔ Lexes text ts := by
  constructor
  · intro h
    obtain ⟨more, rfl, hmore⟩ := lexes_of_tokensFrom? h
    exact hmore
  · intro h
    exact tokensFrom?_of_lexes h []

end Token

/-- The text is a text of the tokens of the value, which is not too deep. -/
structure IsText (text : List Char) (v : Json) : Prop where
  lexes : Token.Lexes text v.tokens
  depth_le : v.depth ≤ depthMax

/-- **Every text of a value is read as that value**, and no other text is read. -/
theorem parse?_eq_some_iff {text : List Char} {v : Json} :
    parse? text = some v ↔ IsText text v := by
  rw [parse?, Option.bind_eq_some_iff]
  constructor
  · rintro ⟨ts, hts, hv⟩
    obtain ⟨rfl, hdepth⟩ := ofTokens?_eq_some_iff.1 hv
    exact ⟨Token.ofText?_eq_some_iff.1 hts, hdepth⟩
  · intro h
    exact ⟨v.tokens, Token.ofText?_eq_some_iff.2 h.lexes,
      ofTokens?_eq_some_iff.2 ⟨rfl, h.depth_le⟩⟩

end LogCodec.Json
