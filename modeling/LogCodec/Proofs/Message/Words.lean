import LogCodec.Message.Run
import Mathlib.Data.List.Basic

/-! # Words and variables of a message

    A word is a maximal run of bytes that are no delimiters.  Which words are variables
    is told by their bytes and by the byte before them.  Looking for the next variable
    again and again finds all of them, in order.

    * `IsWord`, `IsVariable`: the words and variables, by their bounds.
    * `Run.Cut`: what is known of runs, if this byte stands before them.
    * `Run.mem_bounds_iff`: the bounds that are read off the runs are those of the
      variables.
    * `variablesFrom`: the variables that are found one after another. -/

namespace LogCodec

/-! ### Words -/

/-- The bytes from one position of a message up to another. -/
def between (message : Bytes) (beg stop : Nat) : Bytes := (message.drop beg).take (stop - beg)

/-- The byte before a position. -/
def byteBefore? (message : Bytes) (pos : Nat) : Option UInt8 :=
  if pos = 0 then none else message[pos - 1]?

/-- Does a byte of a word stand at this position? -/
def isInWord (message : Bytes) (i : Nat) : Bool := message[i]?.any fun b => !isDelimiter b

/-- A word of a message: a maximal run of bytes that are no delimiters. -/
structure IsWord (message : Bytes) (beg stop : Nat) : Prop where
  nonempty : beg < stop
  inside : ∀ i, beg ≤ i → i < stop → isInWord message i = true
  left : beg = 0 ∨ isInWord message (beg - 1) = false
  right : isInWord message stop = false

/-- A variable of a message: a word that contains a digit, or stands directly after an
    equals sign and contains a letter, or has two or more bytes, all of them hexadecimal
    digits. -/
structure IsVariable (message : Bytes) (beg stop : Nat) : Prop where
  word : IsWord message beg stop
  value : (∃ b ∈ between message beg stop, Ascii.isDigit b = true) ∨
    (byteBefore? message beg = some equalsSign ∧
      ∃ b ∈ between message beg stop, Ascii.isLetter b = true) ∨
    2 ≤ stop - beg ∧ ∀ b ∈ between message beg stop, Ascii.isHexDigit b = true

/-- Words that begin at the same place are the same. -/
theorem IsWord.stop_unique {message : Bytes} {beg stop stop' : Nat} (h : IsWord message beg stop)
    (h' : IsWord message beg stop') : stop = stop' := by
  have hlt := h.nonempty
  have hlt' := h'.nonempty
  by_contra hne
  rcases Nat.lt_or_gt_of_ne hne with hless | hless
  · have := h'.inside stop (by omega) hless
    rw [h.right] at this
    cases this
  · have := h.inside stop' (by omega) hless
    rw [h'.right] at this
    cases this

/-- A word that does not begin before another one is the same, or stands behind it. -/
theorem IsWord.eq_or_le {message : Bytes} {beg stop beg' stop' : Nat} (h : IsWord message beg stop)
    (h' : IsWord message beg' stop') (hle : beg ≤ beg') :
    beg' = beg ∧ stop' = stop ∨ stop ≤ beg' := by
  rcases Nat.eq_or_lt_of_le hle with rfl | hlt
  · exact .inl ⟨rfl, h'.stop_unique h⟩
  · refine .inr (Nat.le_of_not_lt fun hinside => ?_)
    -- it would begin inside of the other one
    rcases h'.left with hzero | hleft
    · omega
    · rw [h.inside (beg' - 1) (by omega) (by omega)] at hleft
      cases hleft

/-! ### Bytes that stand somewhere -/

section

variable {message part rest : Bytes} {start : Nat} (h : message.drop start = part ++ rest)

include h

theorem getElem?_of_drop {i : Nat} (hi : i < part.length) : message[start + i]? = some part[i] := by
  rw [← List.getElem?_drop, h, List.getElem?_append_left hi, List.getElem?_eq_getElem hi]

theorem drop_of_drop : message.drop (start + part.length) = rest := by
  rw [← List.drop_drop, h, List.drop_left]

theorem between_of_drop : between message start (start + part.length) = part := by
  rw [between, Nat.add_sub_cancel_left, h, List.take_left]

theorem byteBefore?_of_drop (hne : part ≠ []) :
    byteBefore? message (start + part.length) = part.getLast? := by
  have hpos := List.length_pos_iff.2 hne
  have hlast : start + part.length - 1 = start + (part.length - 1) := by omega
  rw [byteBefore?, if_neg (by omega), hlast, getElem?_of_drop h (by omega),
    List.getLast?_eq_getElem?, List.getElem?_eq_getElem (by omega)]

theorem isInWord_of_drop {i : Nat} (hlow : start ≤ i) (hhigh : i < start + part.length) :
    ∃ b ∈ part, isInWord message i = !isDelimiter b := by
  have hi : i - start < part.length := by omega
  have hget := getElem?_of_drop h hi
  rw [Nat.add_sub_cancel' hlow] at hget
  exact ⟨_, List.getElem_mem hi, by rw [isInWord, hget, Option.any_some]⟩

end

/-! ### Runs -/

namespace Run

/-- The runs are maximal, if this byte stands before them. -/
inductive Cut : Option UInt8 → List Run → Prop
  | nil {before : Option UInt8} : Cut before []
  | gap {before : Option UInt8} {bytes : Bytes} {rest : List Run} :
    bytes ≠ [] → (∀ b ∈ bytes, isDelimiter b = true) → Cut bytes.getLast? rest →
    Cut before (.gap bytes :: rest)
  | word {before : Option UInt8} {bytes : Bytes} {rest : List Run} :
    bytes ≠ [] → (∀ b ∈ bytes, isDelimiter b = false) → (∀ b ∈ before, isDelimiter b = true) →
    Cut bytes.getLast? rest → Cut before (.word (before == some equalsSign) bytes :: rest)

/-- A byte in front of runs makes their first run longer, or a run of its own. -/
theorem Cut.push {runs : List Run} (h : Cut none runs) (b : UInt8) : Cut none (push b runs) := by
  have hsingle {c : UInt8} {p : Bool} (hb : isDelimiter b = p) (hc : c ∈ [b]) :
      isDelimiter c = p := by rw [List.mem_singleton.1 hc, hb]
  have hcons {bytes : Bytes} {p : Bool} (hb : isDelimiter b = p)
      (hbytes : ∀ c ∈ bytes, isDelimiter c = p) : ∀ c ∈ b :: bytes, isDelimiter c = p :=
    List.forall_mem_cons.2 ⟨hb, hbytes⟩
  cases hb : isDelimiter b with
  | true =>
    cases h with
    | nil =>
      rw [Run.push, if_pos hb]
      exact .gap (List.cons_ne_nil _ _) (fun _ => hsingle hb) .nil
    | gap hne hall hrest =>
      rw [Run.push, if_pos hb]
      refine .gap (List.cons_ne_nil _ _) (hcons hb hall) ?_
      rwa [List.getLast?_cons_of_ne_nil hne]
    | word hne hall hbefore hrest =>
      rw [Run.push, if_pos hb]
      refine .gap (List.cons_ne_nil _ _) (fun _ => hsingle hb) ?_
      exact .word hne hall (fun _ hc => Option.mem_some.1 hc ▸ hb) hrest
  | false =>
    have hnone : ∀ c ∈ (none : Option UInt8), isDelimiter c = true := by
      intro c hc
      cases hc
    have hnot : ¬ isDelimiter b = true := by simp [hb]
    cases h with
    | nil =>
      rw [Run.push, if_neg hnot]
      exact .word (List.cons_ne_nil _ _) (fun _ => hsingle hb) hnone .nil
    | gap hne hall hrest =>
      rw [Run.push, if_neg hnot]
      exact .word (List.cons_ne_nil _ _) (fun _ => hsingle hb) hnone (.gap hne hall hrest)
    | word hne hall hbefore hrest =>
      rw [Run.push, if_neg hnot]
      refine .word (List.cons_ne_nil _ _) (hcons hb hall) hnone ?_
      rwa [List.getLast?_cons_of_ne_nil hne]

/-- A message is cut into maximal runs. -/
theorem cut_ofMessage (message : Bytes) : Cut none (ofMessage message) := by
  induction message with
  | nil => exact .nil
  | cons b rest ih => exact ih.push b

/-! ### Bounds -/

/-- Runs at or after a position do not begin before it, and do not overlap. -/
theorem pairwise_bounds (start : Nat) (runs : List Run) :
    (bounds start runs).Pairwise (fun a b => a.2 ≤ b.1) ∧
      ∀ p ∈ bounds start runs, start ≤ p.1 := by
  induction runs generalizing start with
  | nil => exact ⟨.nil, fun _ h => absurd h List.not_mem_nil⟩
  | cons run rest ih =>
    obtain ⟨hpairwise, hle⟩ := ih (start + run.bytes.length)
    rw [bounds]
    split
    · refine ⟨.cons hle hpairwise, fun p hp => ?_⟩
      rcases List.mem_cons.1 hp with rfl | hp
      · exact Nat.le_refl _
      · exact Nat.le_of_add_right_le (hle p hp)
    · exact ⟨hpairwise, fun p hp => Nat.le_of_add_right_le (hle p hp)⟩

section

variable {message : Bytes} {start : Nat} {rest : List Run}

/-- No word goes on where runs stand behind a word. -/
theorem Cut.isInWord_eq_false {before : Option UInt8} (h : Cut before rest)
    (hbefore : ∃ b ∈ before, isDelimiter b = false)
    (hdrop : message.drop start = rest.flatMap bytes) : isInWord message start = false := by
  cases h with
  | nil =>
    have hend := List.drop_eq_nil_iff.1 hdrop
    rw [isInWord, List.getElem?_eq_none hend]
    rfl
  | gap hne hall _ =>
    have hpos := List.length_pos_iff.2 hne
    obtain ⟨b, hb, heq⟩ := isInWord_of_drop hdrop (Nat.le_refl start) (Nat.lt_add_of_pos_right hpos)
    rw [heq, hall b hb]
    rfl
  | word _ _ hdelimiter _ =>
    obtain ⟨b, hb, hnot⟩ := hbefore
    rw [hdelimiter b hb] at hnot
    cases hnot

/-- A run of other bytes is a word. -/
theorem Cut.isWord {token : Bytes} (hne : token ≠ [])
    (hall : ∀ b ∈ token, isDelimiter b = false)
    (hbefore : ∀ b ∈ byteBefore? message start, isDelimiter b = true)
    (hrest : Cut token.getLast? rest)
    (hdrop : message.drop start = token ++ rest.flatMap bytes) :
    IsWord message start (start + token.length) where
  nonempty := Nat.lt_add_of_pos_right (List.length_pos_iff.2 hne)
  inside := by
    intro i hlow hhigh
    obtain ⟨b, hb, heq⟩ := isInWord_of_drop hdrop hlow hhigh
    rw [heq, hall b hb]
    rfl
  left := by
    by_cases hzero : start = 0
    · exact .inl hzero
    · refine .inr ?_
      rw [byteBefore?, if_neg hzero] at hbefore
      cases hb : message[start - 1]? with
      | none => rw [isInWord, hb]; rfl
      | some b => rw [isInWord, hb, Option.any_some, hbefore b hb]; rfl
  right := by
    refine hrest.isInWord_eq_false ⟨token.getLast hne, ?_, ?_⟩ (drop_of_drop hdrop)
    · exact List.getLast?_eq_some_getLast hne
    · exact hall _ (List.getLast_mem hne)

/-- Which words are variables. -/
theorem isVariable_word_iff {token : Bytes} {stop : Nat} (hstop : stop = start + token.length)
    (hdrop : message.drop start = token ++ rest.flatMap bytes)
    (hword : IsWord message start stop) :
    (Run.word (byteBefore? message start == some equalsSign) token).isVariable = true ↔
      IsVariable message start stop := by
  subst hstop
  have hbetween := between_of_drop hdrop
  have hvalue : (Run.word (byteBefore? message start == some equalsSign) token).isVariable = true ↔
      (∃ b ∈ token, Ascii.isDigit b = true) ∨
        (byteBefore? message start = some equalsSign ∧ ∃ b ∈ token, Ascii.isLetter b = true) ∨
        2 ≤ token.length ∧ ∀ b ∈ token, Ascii.isHexDigit b = true := by
    simp only [isVariable, isMultiDigitHex, Bool.or_eq_true, Bool.and_eq_true, List.any_eq_true,
      List.all_eq_true, beq_iff_eq, decide_eq_true_eq, or_assoc]
  rw [hvalue]
  constructor
  · intro h
    refine ⟨hword, ?_⟩
    rwa [hbetween, Nat.add_sub_cancel_left]
  · rintro ⟨-, h⟩
    rwa [hbetween, Nat.add_sub_cancel_left] at h

/-- **Bounds.**  Those that are read off the runs from a position on are those of the
    variables from there on. -/
theorem Cut.mem_bounds_iff {runs : List Run} (hcut : Cut (byteBefore? message start) runs)
    (hdrop : message.drop start = runs.flatMap bytes) {beg stop : Nat} :
    (beg, stop) ∈ bounds start runs ↔ IsVariable message beg stop ∧ start ≤ beg := by
  induction runs generalizing start with
  | nil =>
    refine ⟨fun h => absurd h List.not_mem_nil, ?_⟩
    rintro ⟨⟨hword, -⟩, hle⟩
    -- there is no byte left
    have hend := List.drop_eq_nil_iff.1 hdrop
    have hinside := hword.inside beg (Nat.le_refl beg) hword.nonempty
    rw [isInWord, List.getElem?_eq_none (Nat.le_trans hend hle)] at hinside
    cases hinside
  | cons run rest ih =>
    rw [List.flatMap_cons] at hdrop
    cases hcut with
    | @gap _ gap _ hne hall hrest =>
      change message.drop start = gap ++ rest.flatMap bytes at hdrop
      rw [← byteBefore?_of_drop hdrop hne] at hrest
      rw [bounds, if_neg (by simp [isVariable])]
      show (beg, stop) ∈ bounds (start + gap.length) rest ↔ _
      rw [ih hrest (drop_of_drop hdrop)]
      refine and_congr_right fun hvariable => ⟨Nat.le_of_add_right_le, fun hle => ?_⟩
      -- no variable begins in the gap
      by_contra hlt
      obtain ⟨b, hb, heq⟩ := isInWord_of_drop hdrop hle (Nat.lt_of_not_le hlt)
      have hinside := hvariable.word.inside beg (Nat.le_refl beg) hvariable.word.nonempty
      rw [heq, hall b hb] at hinside
      cases hinside
    | @word _ token _ hne hall hbefore hrest =>
      change message.drop start = token ++ rest.flatMap bytes at hdrop
      have hword := Cut.isWord hne hall hbefore hrest hdrop
      have hiff := isVariable_word_iff rfl hdrop hword
      rw [← byteBefore?_of_drop hdrop hne] at hrest
      have hbehind := ih hrest (drop_of_drop hdrop)
      rw [bounds]
      by_cases hv :
          (Run.word (byteBefore? message start == some equalsSign) token).isVariable = true
      · rw [if_pos hv, List.mem_cons, Prod.mk.injEq]
        show _ ∨ (beg, stop) ∈ bounds (start + token.length) rest ↔ _
        rw [hbehind]
        constructor
        · rintro (⟨rfl, rfl⟩ | ⟨hvariable, hle⟩)
          · exact ⟨hiff.1 hv, Nat.le_refl _⟩
          · exact ⟨hvariable, Nat.le_of_add_right_le hle⟩
        · rintro ⟨hvariable, hle⟩
          exact (hword.eq_or_le hvariable.word hle).imp_right fun h => ⟨hvariable, h⟩
      · rw [if_neg hv]
        show (beg, stop) ∈ bounds (start + token.length) rest ↔ _
        rw [hbehind]
        refine and_congr_right fun hvariable => ⟨Nat.le_of_add_right_le, fun hle => ?_⟩
        rcases hword.eq_or_le hvariable.word hle with ⟨rfl, rfl⟩ | hle
        · exact absurd (hiff.2 hvariable) hv
        · exact hle

end

/-! ### The runs behind a variable -/

/-- No word stands first. -/
def StartsFree (runs : List Run) : Prop :=
  ∀ afterEquals token rest, runs ≠ .word afterEquals token :: rest

/-- A word ends at a delimiter or at the end of the message. -/
theorem Cut.startsFree {before : Option UInt8} {front : List Run} {afterEquals : Bool}
    {token : Bytes} {rest : List Run}
    (h : Cut before (front ++ .word afterEquals token :: rest)) : StartsFree rest := by
  induction front generalizing before with
  | nil =>
    rintro _ _ _ rfl
    cases h with
    | word hne hall _ hrest =>
      cases hrest with
      | word _ _ hbefore _ =>
        have hdelimiter := hbefore _ (List.getLast?_eq_some_getLast hne)
        rw [hall _ (List.getLast_mem hne)] at hdelimiter
        cases hdelimiter
  | cons run front ih =>
    cases h with
    | gap _ _ hrest => exact ih hrest
    | word _ _ _ hrest => exact ih hrest

/-- Whether an equals sign stands before them makes no difference to runs that start with
    no word. -/
theorem markFirst_of_startsFree {runs : List Run} (h : StartsFree runs) (afterEquals : Bool) :
    markFirst afterEquals runs = runs := by
  cases runs with
  | nil => rfl
  | cons run rest =>
    cases run with
    | gap => rfl
    | word marked token => exact absurd rfl (h marked token rest)

/-- Before a byte was put in front, the same runs stood at the end. -/
theorem exists_of_push_eq_cons {b : UInt8} {run : Run} {runs front rest : List Run}
    (h : push b runs = run :: front ++ rest) (hrest : StartsFree rest) :
    ∃ front', runs = front' ++ rest := by
  rw [List.cons_append] at h
  cases runs with
  | nil =>
    have hnil : front ++ rest = [] := by
      rw [push] at h
      split at h <;> exact (List.cons.inj h).2.symm
    exact ⟨[], (List.append_eq_nil_iff.1 hnil).2.symm⟩
  | cons first others =>
    cases first with
    | gap gap =>
      rw [push] at h
      split at h
      · exact ⟨.gap gap :: front, by rw [(List.cons.inj h).2]; rfl⟩
      · exact ⟨front, (List.cons.inj h).2⟩
    | word marked token =>
      rw [push] at h
      split at h
      · -- the first word was marked
        have htail := (List.cons.inj h).2
        cases front with
        | nil => exact absurd htail.symm (hrest _ _ _)
        | cons word front =>
          exact ⟨.word marked token :: front, by rw [(List.cons.inj htail).2]; rfl⟩
      · exact ⟨.word marked token :: front, by rw [(List.cons.inj h).2]; rfl⟩

/-- Runs in front of others that start with no word can be left out. -/
theorem ofMessage_of_append {message : Bytes} {front rest : List Run}
    (h : ofMessage message = front ++ rest) (hrest : StartsFree rest) :
    ofMessage (rest.flatMap bytes) = rest := by
  induction message generalizing front with
  | nil =>
    obtain ⟨-, rfl⟩ := List.append_eq_nil_iff.1 h.symm
    rfl
  | cons b message ih =>
    cases front with
    | nil => rw [← List.nil_append rest, ← h, flatMap_bytes_ofMessage]
    | cons run front =>
      obtain ⟨front', hfront⟩ := exists_of_push_eq_cons h hrest
      exact ih hfront

/-- The first variable, and the runs behind it. -/
theorem exists_of_bounds_eq_cons {runs : List Run} {start : Nat} {p : Nat × Nat}
    {more : List (Nat × Nat)} (h : bounds start runs = p :: more) :
    ∃ front run rest, runs = front ++ run :: rest ∧ run.isVariable = true ∧
      p.2 = start + ((front ++ [run]).flatMap bytes).length ∧ more = bounds p.2 rest := by
  induction runs generalizing start with
  | nil => cases h
  | cons run rest ih =>
    rw [bounds] at h
    split at h
    · rename_i hv
      cases h
      exact ⟨[], run, rest, rfl, hv, by simp, rfl⟩
    · obtain ⟨front, run', rest', rfl, hv, hp, hmore⟩ := ih h
      refine ⟨run :: front, run', rest', rfl, hv, ?_, hmore⟩
      rw [hp, List.cons_append, List.flatMap_cons, List.length_append, Nat.add_assoc]

theorem bytes_ne_nil_of_isVariable {run : Run} (h : run.isVariable = true) : run.bytes ≠ [] := by
  cases run with
  | gap => cases h
  | word afterEquals token =>
    rintro (rfl : token = [])
    simp [isVariable, isMultiDigitHex] at h

/-- Variables are not empty and stand within the runs. -/
theorem lt_of_mem_bounds {start : Nat} {runs : List Run} {p : Nat × Nat}
    (h : p ∈ bounds start runs) :
    start < p.2 ∧ p.2 ≤ start + (runs.flatMap bytes).length := by
  induction runs generalizing start with
  | nil => exact absurd h List.not_mem_nil
  | cons run rest ih =>
    rw [List.flatMap_cons, List.length_append]
    have hrest (hp : p ∈ bounds (start + run.bytes.length) rest) := ih hp
    rw [bounds] at h
    split at h
    · rename_i hv
      have hpos := List.length_pos_iff.2 (bytes_ne_nil_of_isVariable hv)
      rcases List.mem_cons.1 h with rfl | hp
      · dsimp only
        omega
      · have := hrest hp
        omega
    · have := hrest h
      omega

theorem flatMap_bytes_markFirst (afterEquals : Bool) (runs : List Run) :
    (markFirst afterEquals runs).flatMap bytes = runs.flatMap bytes := by
  cases runs with
  | nil => rfl
  | cons run rest => cases run <;> rfl

end Run

/-! ### Variables one after another -/

theorem lt_of_nextVariable? {message : Bytes} {pos : Nat} {p : Nat × Nat}
    (h : nextVariable? message pos = some p) : pos < p.2 ∧ p.2 ≤ message.length := by
  have hbounds := Run.lt_of_mem_bounds (List.mem_of_head? h)
  rw [Run.flatMap_bytes_markFirst, Run.flatMap_bytes_ofMessage, List.length_drop] at hbounds
  omega

/-- The variables that are found from a position on, each from the end of the one before
    it. -/
def variablesFrom (message : Bytes) (pos : Nat) : List (Nat × Nat) :=
  match _h : nextVariable? message pos with
  | none => []
  | some p => p :: variablesFrom message p.2
termination_by message.length - pos
decreasing_by
  have := lt_of_nextVariable? _h
  omega

theorem variablesFrom_of_none {message : Bytes} {pos : Nat} (h : nextVariable? message pos = none) :
    variablesFrom message pos = [] := by
  rw [variablesFrom]
  split <;> simp_all

theorem variablesFrom_of_some {message : Bytes} {pos : Nat} {p : Nat × Nat}
    (h : nextVariable? message pos = some p) :
    variablesFrom message pos = p :: variablesFrom message p.2 := by
  rw [variablesFrom]
  split <;> simp_all

/-- If the bounds at a position are read off its runs, so are those of all variables from
    there on. -/
theorem variablesFrom_eq_bounds {message : Bytes} {pos : Nat} {runs : List Run}
    (hruns : Run.ofMessage (message.drop pos) = runs)
    (hbounds : variableBounds message pos = Run.bounds pos runs) :
    variablesFrom message pos = Run.bounds pos runs := by
  -- on the variables that are left
  generalize hleft : Run.bounds pos runs = left at hbounds
  induction left generalizing pos runs with
  | nil => exact variablesFrom_of_none (by rw [nextVariable?, hbounds]; rfl)
  | cons p more ih =>
    have hnext : nextVariable? message pos = some p := by rw [nextVariable?, hbounds]; rfl
    obtain ⟨front, run, rest, rfl, hv, hstop, hmore⟩ := Run.exists_of_bounds_eq_cons hleft
    rw [List.append_cons] at hruns
    -- the next search starts behind the word of the variable
    have hfree : Run.StartsFree rest := by
      cases run with
      | gap => cases hv
      | word afterEquals token =>
        have hcut := Run.cut_ofMessage (message.drop pos)
        rw [hruns, List.append_assoc] at hcut
        exact hcut.startsFree
    have hdrop : message.drop p.2 = rest.flatMap Run.bytes := by
      have hall := Run.flatMap_bytes_ofMessage (message.drop pos)
      rw [hruns, List.flatMap_append] at hall
      rw [hstop]
      exact drop_of_drop hall.symm
    have hrest : Run.ofMessage (message.drop p.2) = rest := by
      rw [hdrop]
      exact Run.ofMessage_of_append hruns hfree
    have hboundsRest : variableBounds message p.2 = more := by
      rw [variableBounds, hrest, Run.markFirst_of_startsFree hfree, hmore]
    rw [variablesFrom_of_some hnext, ih hrest hmore.symm hboundsRest]

/-- The variables of a message are those among its runs. -/
theorem variablesFrom_zero (message : Bytes) :
    variablesFrom message 0 = Run.bounds 0 (Run.ofMessage message) := by
  refine variablesFrom_eq_bounds rfl ?_
  have hcut := Run.cut_ofMessage message
  rw [variableBounds, List.drop_zero]
  congr 1
  -- nothing stands before the first word
  cases hruns : Run.ofMessage message with
  | nil => rfl
  | cons run rest =>
    rw [hruns] at hcut
    cases hcut <;> rfl

/-- **The variables of a message** are found one after another: all of them, in order, and
    no other runs. -/
theorem mem_variablesFrom_iff {message : Bytes} {beg stop : Nat} :
    (beg, stop) ∈ variablesFrom message 0 ↔ IsVariable message beg stop := by
  have hdrop : message.drop 0 = (Run.ofMessage message).flatMap Run.bytes := by
    rw [List.drop_zero, Run.flatMap_bytes_ofMessage]
  have hcut : Run.Cut (byteBefore? message 0) (Run.ofMessage message) := Run.cut_ofMessage message
  rw [variablesFrom_zero, hcut.mem_bounds_iff hdrop]
  exact and_iff_left (Nat.zero_le _)

theorem pairwise_variablesFrom (message : Bytes) :
    (variablesFrom message 0).Pairwise fun a b => a.2 ≤ b.1 := by
  rw [variablesFrom_zero]
  exact (Run.pairwise_bounds 0 _).1

end LogCodec
