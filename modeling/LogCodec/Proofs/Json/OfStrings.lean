import LogCodec.Proofs.Json.Lexis

/-! # Objects of strings are read as they were written

    What an object of strings is written as is one of its texts, so it is read as that
    object.  For each part of the text there is a lemma: a character, a string, a member, all
    members.

    - `lexes_ofStrings`: the tokens of the text.
    - `parse?_ofStrings`: the object that is read. -/

namespace LogCodec.Json

/-- An object of strings. -/
def ofMembers (members : List (List Char × List Char)) : Json :=
  .object (members.map fun (key, value) => (key, .string value))

theorem intercalate_map_cons_cons {α β : Type} (separator : α) (f : β → List α) (a b : β)
    (rest : List β) :
    [separator].intercalate ((a :: b :: rest).map f) =
      f a ++ separator :: [separator].intercalate ((b :: rest).map f) := by
  simp

namespace Token

/-! ### Characters and strings -/

theorem hexValue?_digitChar {d : Nat} (h : d < 16) : hexValue? (Nat.digitChar d) = some d := by
  have hall : ∀ d < 16, hexValue? (Nat.digitChar d) = some d := by decide
  exact hall d h

/-- A control character is spelled by the four digits of its code. -/
theorem spells_control {c : Char} (h : c < ' ') :
    Spells ['\\', 'u', '0', '0', Nat.digitChar (c.toNat / 16), Nat.digitChar (c.toNat % 16)] c := by
  have hlt : c.toNat < 32 := h
  have hhigh := hexValue?_digitChar (d := c.toNat / 16) (by omega)
  have hlow := hexValue?_digitChar (d := c.toNat % 16) (by omega)
  have hzero : hexValue? '0' = some 0 := by decide
  have hcode : c.toNat / 16 * 16 + c.toNat % 16 = c.toNat := by omega
  have hunit :
      IsUnit ['0', '0', Nat.digitChar (c.toNat / 16), Nat.digitChar (c.toNat % 16)] c.toNat :=
    ⟨rfl, by simp [unitFrom?, hzero, hhigh, hlow, hcode]⟩
  have hspells := Spells.unit hunit (by omega)
  rwa [Char.ofNat_toNat] at hspells

/-- An escaped character spells that character. -/
theorem spells_escapeChar (c : Char) : Spells (escapeChar c) c := by
  unfold escapeChar
  -- first the characters whose escape is a name
  split
  · subst c; exact .escape rfl
  split
  · subst c; exact .escape rfl
  split
  · subst c; exact .escape rfl
  split
  · subst c; exact .escape rfl
  split
  · subst c; exact .escape rfl
  split
  · subst c; exact .escape rfl
  split
  · subst c; exact .escape rfl
  split
  · rename_i hcontrol
    exact spells_control hcontrol
  · rename_i hquote hbackslash _ _ _ _ _ hcontrol
    exact .plain hquote hbackslash hcontrol

theorem written_escape (text : List Char) : Written (text.flatMap escapeChar) text := by
  induction text with
  | nil => exact .nil
  | cons c text ih => exact .cons (spells_escapeChar c) ih

section

variable {rest : List Char} {ts : List Token} (h : Lexes rest ts)

include h

/-- A string between quotes is one token. -/
theorem lexes_quote (text : List Char) : Lexes (quote text ++ rest) (.string text :: ts) := by
  rw [quote, List.append_assoc, List.cons_append]
  exact .string (written_escape text) h

end

/-! ### Objects -/

/-- The tokens of a member. -/
def ofMember (member : List Char × List Char) : List Token :=
  [.string member.1, .colon, .string member.2]

/-- The tokens of an object. -/
def ofMembers (members : List (List Char × List Char)) : List Token :=
  .openObject :: [.comma].intercalate (members.map ofMember) ++ [.closeObject]

section

variable {rest : List Char} {ts : List Token} (h : Lexes rest ts)

include h

theorem lexes_member (key value : List Char) :
    Lexes ((quote key ++ ':' :: quote value) ++ rest) (ofMember (key, value) ++ ts) := by
  rw [List.append_assoc]
  exact lexes_quote (.punctuation rfl (lexes_quote h value)) key

theorem lexes_members (members : List (List Char × List Char)) :
    Lexes ([','].intercalate (members.map fun (key, value) => quote key ++ ':' :: quote value) ++
        rest)
      ([Token.comma].intercalate (members.map ofMember) ++ ts) := by
  induction members with
  | nil => exact h
  | cons member members ih =>
    obtain ⟨key, value⟩ := member
    cases members with
    | nil => simpa [List.intercalate] using lexes_member h key value
    | cons member' members =>
      have hcomma := Lexes.punctuation (c := ',') rfl ih
      have hmember := lexes_member hcomma key value
      rwa [← List.cons_append, ← List.append_assoc, ← List.cons_append, ← List.append_assoc,
        ← intercalate_map_cons_cons] at hmember

end

/-- The tokens of an object of strings. -/
theorem lexes_ofStrings (members : List (List Char × List Char)) :
    Lexes (ofStrings members) (ofMembers members) := by
  have hclose : Lexes ['\x7d'] [.closeObject] := .punctuation rfl .nil
  exact .punctuation rfl (lexes_members hclose members)

end Token

/-! ### Values -/

theorem tokens_ofMembers (members : List (List Char × List Char)) :
    (ofMembers members).tokens = Token.ofMembers members := by
  rw [ofMembers, tokens, memberTokens_eq_map, List.map_map]
  rfl

theorem depth_ofMembers_le (members : List (List Char × List Char)) :
    (ofMembers members).depth ≤ depthMax := by
  have hmembers : membersDepth (members.map fun (key, value) => (key, .string value)) ≤ 0 := by
    rw [membersDepth_le_iff]
    intro m hm
    obtain ⟨member, -, rfl⟩ := List.mem_map.1 hm
    exact Nat.le_refl 0
  rw [ofMembers, depth, depthMax]
  omega

/-- **An object of strings is read as it was written.** -/
theorem parse?_ofStrings (members : List (List Char × List Char)) :
    parse? (ofStrings members) = some (ofMembers members) := by
  refine parse?_eq_some_iff.2 ⟨?_, depth_ofMembers_le members⟩
  rw [tokens_ofMembers]
  exact Token.lexes_ofStrings members

end LogCodec.Json
