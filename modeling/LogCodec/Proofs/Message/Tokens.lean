import LogCodec.Proofs.Message.Acceptance
import LogCodec.Proofs.Message.Words

/-! # What a message is encoded as

    The log type of an encoded message is the message with a placeholder for each
    variable.  The variables themselves stand in the other fields, in order.

    * `Encoded.template`: the message with placeholders.
    * `Encoded.IsOf`: the fields of an encoded message, told by the message.
    * `Encoded.tokenized`: these are the fields that encoding gives. -/

namespace LogCodec

variable {w : Width}

namespace Encoded

/-! ### The fields of an encoded message -/

/-- A byte that belongs to no variable as it stands in the log type: after a backslash
    just if it is a backslash or reserved. -/
def staticByte (b : UInt8) : Bytes := if b = 0x5C ∨ 0x10 ≤ b ∧ b ≤ 0x1F then [0x5C, b] else [b]

/-- The placeholder of a variable with this text. -/
def placeholderOf (w : Width) (token : Bytes) : UInt8 :=
  if (Number.encodeInteger? w token).isSome then 0x11
  else if (Number.encodeFloat? w token).isSome then 0x13
  else 0x12

/-- The inline variable with this text: an integer if it can be, else a float. -/
def inlineOf? (w : Width) (token : Bytes) : Option (Variable w) :=
  (Number.encodeInteger? w token).or (Number.encodeFloat? w token)

/-- A message from a position on, with placeholders in the place of variables. -/
def template (w : Width) (message : Bytes) (pos : Nat) : List (Nat × Nat) → Bytes
  | [] => (message.drop pos).flatMap staticByte
  | (beg, stop) :: rest =>
    (between message pos beg).flatMap staticByte ++
      placeholderOf w (between message beg stop) :: template w message stop rest

/-- The texts of the variables of a message. -/
def tokens (message : Bytes) : List Bytes :=
  (variablesFrom message 0).map fun p => between message p.1 p.2

/-- The texts of the variables that are neither integers nor floats. -/
def entries (w : Width) (message : Bytes) : List Bytes :=
  (tokens message).filter fun token => (inlineOf? w token).isNone

/-- The fields are those of this message. -/
structure IsOf (message : Bytes) (e : Encoded w) : Prop where
  logType : e.logType = template w message 0 (variablesFrom message 0)
  inline : e.inline = (tokens message).filterMap (inlineOf? w)
  dictionary : e.dictionary = (entries w message).flatten
  /-- The dictionary is cut into the texts that it is made of. -/
  slices : (List.range e.ends.length).map (fun index => dictVar? e index) =
    (entries w message).map some

/-! ### Parts -/

theorem escape_eq_flatMap (text : Bytes) : LogType.escape text = text.flatMap staticByte := by
  rw [LogType.escape]
  congr 1
  funext b
  simp [LogType.needsEscape, LogType.isReserved, LogType.escapeByte, staticByte]

theorem logType_ofToken (token : Bytes) :
    (Part.ofToken w token).logType = [placeholderOf w token] := by
  unfold Part.ofToken placeholderOf
  cases Number.encodeInteger? w token with
  | some v => rfl
  | none => cases Number.encodeFloat? w token <;> rfl

theorem inline?_ofToken (token : Bytes) :
    (Part.ofToken w token).inline? = inlineOf? w token := by
  unfold Part.ofToken inlineOf?
  cases Number.encodeInteger? w token with
  | some v => rfl
  | none => cases Number.encodeFloat? w token <;> rfl

theorem token?_ofToken (token : Bytes) :
    (Part.ofToken w token).token? =
      if (inlineOf? w token).isNone then some token else none := by
  unfold Part.ofToken inlineOf?
  cases Number.encodeInteger? w token with
  | some v => rfl
  | none => cases Number.encodeFloat? w token <;> rfl

/-- Only variables have something besides the log type. -/
theorem filterMap_ofRuns {β : Type} (f : Part w → Option β) (hf : ∀ text, f (.text text) = none)
    (runs : List Run) :
    (runs.map (Part.ofRun w)).filterMap f =
      ((runs.filter Run.isVariable).map Run.bytes).filterMap fun token =>
        f (Part.ofToken w token) := by
  induction runs with
  | nil => rfl
  | cons run rest ih =>
    rw [List.map_cons, List.filterMap_cons, List.filter_cons, Part.ofRun, ih]
    by_cases hv : run.isVariable = true
    · rw [if_pos hv, if_pos hv, List.map_cons, List.filterMap_cons]
    · rw [if_neg hv, if_neg hv, hf]

/-! ### Runs and bounds -/

section

variable {message : Bytes} {start : Nat}

/-- Bytes in front of all variables are copied. -/
theorem template_of_drop {part rest : Bytes} (hdrop : message.drop start = part ++ rest)
    {found : List (Nat × Nat)} (hle : ∀ p ∈ found, start + part.length ≤ p.1) :
    template w message start found =
      part.flatMap staticByte ++ template w message (start + part.length) found := by
  cases found with
  | nil => rw [template, template, hdrop, drop_of_drop hdrop, List.flatMap_append]
  | cons p more =>
    have hp := hle p (List.mem_cons_self ..)
    have hsize : p.1 - start = part.length + (p.1 - (start + part.length)) := by omega
    have hbetween : between message start p.1 =
        part ++ between message (start + part.length) p.1 := by
      rw [between, between, drop_of_drop hdrop, hdrop, hsize, List.take_length_add_append]
    rw [template, template, hbetween, List.flatMap_append, List.append_assoc]

/-- The log type of runs is the message from there on, with placeholders. -/
theorem template_bounds {runs : List Run} (hdrop : message.drop start = runs.flatMap Run.bytes) :
    template w message start (Run.bounds start runs) =
      (runs.map (Part.ofRun w)).flatMap Part.logType := by
  induction runs generalizing start with
  | nil => rw [Run.bounds, template, hdrop]; rfl
  | cons run rest ih =>
    rw [List.flatMap_cons] at hdrop
    have hrest := ih (drop_of_drop hdrop)
    rw [List.map_cons, List.flatMap_cons, ← hrest, Part.ofRun, Run.bounds]
    by_cases hv : run.isVariable = true
    · rw [if_pos hv, if_pos hv, template, between_of_drop hdrop, logType_ofToken, between,
        Nat.sub_self, List.take_zero]
      rfl
    · rw [if_neg hv, if_neg hv, template_of_drop hdrop (Run.pairwise_bounds _ rest).2,
        Part.logType, escape_eq_flatMap]

/-- The texts at the bounds are those of the runs. -/
theorem map_between_bounds {runs : List Run} (hdrop : message.drop start = runs.flatMap Run.bytes) :
    ((Run.bounds start runs).map fun p => between message p.1 p.2) =
      (runs.filter Run.isVariable).map Run.bytes := by
  induction runs generalizing start with
  | nil => rfl
  | cons run rest ih =>
    rw [List.flatMap_cons] at hdrop
    have hrest := ih (drop_of_drop hdrop)
    rw [Run.bounds, List.filter_cons]
    by_cases hv : run.isVariable = true
    · rw [if_pos hv, if_pos hv, List.map_cons, List.map_cons, hrest, between_of_drop hdrop]
    · rw [if_neg hv, if_neg hv, hrest]

end

theorem tokens_eq (message : Bytes) :
    tokens message = ((Run.ofMessage message).filter Run.isVariable).map Run.bytes := by
  rw [tokens, variablesFrom_zero]
  apply map_between_bounds
  rw [List.drop_zero, Run.flatMap_bytes_ofMessage]

/-! ### Slices of the dictionary -/

theorem getElem?_endsFrom (start : Nat) (texts : List Bytes) (index : Nat) :
    (endsFrom start texts)[index]? =
      if index < texts.length then some (start + (texts.take (index + 1)).flatten.length)
      else none := by
  induction texts generalizing start index with
  | nil => rfl
  | cons text rest ih =>
    cases index with
    | zero => simp [endsFrom]
    | succ index =>
      rw [endsFrom, List.getElem?_cons_succ, ih]
      simp [Nat.add_assoc]

/-- The middle part of three. -/
theorem slice?_append (front text back : Bytes) :
    slice? (front ++ (text ++ back)) (front.length : Int) ((front ++ text).length : Int) =
      some text := by
  have hsize : (((front ++ text).length : Int) - (front.length : Int)).toNat = text.length := by
    rw [List.length_append]
    omega
  rw [slice?, if_pos, Int.toNat_natCast, List.drop_left, hsize, List.take_left]
  simp only [List.length_append]
  omega

section

variable {e : Encoded w} {texts : List Bytes}
  (hends : e.ends = (endsFrom 0 texts).map (BitVec.ofNat _))
  (hmax : ∀ stop ∈ endsFrom 0 texts, stop ≤ endMax)

include hends hmax

theorem getElem?_ends {index : Nat} (h : index < texts.length) :
    ∃ stop, e.ends[index]? = some stop ∧
      stop.toInt = ((texts.take (index + 1)).flatten.length : Int) := by
  have hget := getElem?_endsFrom 0 texts index
  rw [if_pos h, Nat.zero_add] at hget
  refine ⟨BitVec.ofNat _ (texts.take (index + 1)).flatten.length, ?_, ?_⟩
  · rw [hends, List.getElem?_map, hget]
    rfl
  · exact toInt_ofNat_end (hmax _ (List.mem_of_getElem? hget))

theorem startOf_eq {index : Nat} (h : index ≤ texts.length) :
    e.startOf index = ((texts.take index).flatten.length : Int) := by
  cases index with
  | zero => rfl
  | succ index =>
    obtain ⟨stop, hstop, hint⟩ := getElem?_ends hends hmax h
    rw [startOf_succ hstop, hint]

/-- Texts that stand one after another are cut out again at their ends. -/
theorem dictVar?_of_flatten (hdictionary : e.dictionary = texts.flatten) {index : Nat}
    (h : index < texts.length) : dictVar? e index = some texts[index] := by
  obtain ⟨stop, hstop, hint⟩ := getElem?_ends hends hmax h
  have hstart := startOf_eq hends hmax (Nat.le_of_lt h)
  have htake : (texts.take (index + 1)).flatten = (texts.take index).flatten ++ texts[index] := by
    rw [List.take_succ_eq_append_getElem h, List.flatten_append, List.flatten_singleton]
  have hall : e.dictionary =
      (texts.take index).flatten ++ (texts[index] ++ (texts.drop (index + 1)).flatten) := by
    rw [hdictionary, ← List.append_assoc, ← htake, ← List.flatten_append, List.take_append_drop]
  rw [dictVar?_eq, hstop, Option.bind_some, hstart, hint, htake, hall, slice?_append]

theorem map_dictVar?_of_flatten (hdictionary : e.dictionary = texts.flatten) :
    (List.range e.ends.length).map (fun index => dictVar? e index) = texts.map some := by
  have hlength : e.ends.length = texts.length := by
    rw [hends, List.length_map, length_endsFrom]
  refine List.ext_getElem (by simpa using hlength) fun index hlt _ => ?_
  rw [List.length_map, List.length_range, hlength] at hlt
  rw [List.getElem_map, List.getElem_range, List.getElem_map,
    dictVar?_of_flatten hends hmax hdictionary hlt]

end

/-! ### Encoding -/

theorem entries_eq (w : Width) (message : Bytes) :
    entries w message = ((Run.ofMessage message).map (Part.ofRun w)).filterMap Part.token? := by
  rw [filterMap_ofRuns Part.token? (fun _ => rfl), ← tokens_eq, entries, ← List.filterMap_eq_filter]
  congr 1
  funext token
  rw [token?_ofToken]
  rfl

/-- What encoding gives. -/
theorem isOf_of_ofMessage {message : Bytes} {e : Encoded w} (h : ofMessage w message = .ok e) :
    e.IsOf message := by
  obtain ⟨hmax, rfl⟩ := ofParts_eq_ok_iff.1 h
  rw [← entries_eq] at hmax
  have hdrop : message.drop 0 = (Run.ofMessage message).flatMap Run.bytes := by
    rw [List.drop_zero, Run.flatMap_bytes_ofMessage]
  refine ⟨?_, ?_, ?_, ?_⟩
  · rw [variablesFrom_zero, template_bounds hdrop, assemble]
  · rw [assemble, filterMap_ofRuns Part.inline? (fun _ => rfl), ← tokens_eq]
    simp only [inline?_ofToken]
  · rw [assemble, entries_eq]
  · apply map_dictVar?_of_flatten _ hmax
    · rw [assemble, entries_eq]
    · rw [assemble, entries_eq]

/-- **Encoding.**  The variables that are found in a message are its words with a digit,
    those with a letter directly after an equals sign, and those of two or more
    hexadecimal digits: all of them, from left to right.  Every message whose length is a
    signed 32-bit number is encoded in both widths.  Its log type is the message with a
    placeholder for each variable, and the variables are stored in order, those that are
    no numbers as slices of the dictionary. -/
theorem tokenized (w : Width) {message : Bytes} (h : message.length ≤ 2 ^ 31 - 1) :
    (∀ beg stop, (beg, stop) ∈ variablesFrom message 0 ↔ IsVariable message beg stop) ∧
      (variablesFrom message 0).Pairwise (fun a b => a.2 ≤ b.1) ∧
      ∃ e, ofMessage w message = .ok e ∧ e.IsOf message := by
  obtain ⟨e, he⟩ := exists_ofMessage w h
  exact ⟨fun _ _ => mem_variablesFrom_iff, pairwise_variablesFrom message, e, he,
    isOf_of_ofMessage he⟩

/-- A letter after an equals sign, an integer, a float, a hexadecimal number and a reserved
    byte. -/
theorem tokenized_kinds :
    let message : Bytes := [0x61, 0x3D, 0x62, 0x20, 0x2D, 0x37, 0x20, 0x30, 0x2E, 0x35, 0x20,
      0x62, 0x65, 0x20, 0x11]
    message.length ≤ 2 ^ 31 - 1 ∧
      (∀ beg stop, (beg, stop) ∈ [(2, 3), (4, 6), (7, 10), (11, 13)] ↔
        IsVariable message beg stop) ∧
      ∃ e, ofMessage .fourByte message = .ok e ∧ e.IsOf message ∧
        e.logType = [0x61, 0x3D, 0x12, 0x20, 0x11, 0x20, 0x13, 0x20, 0x12, 0x20, 0x5C, 0x11] := by
  intro message
  have hfound : variablesFrom message 0 = [(2, 3), (4, 6), (7, 10), (11, 13)] := by
    rw [variablesFrom_zero]
    decide
  have hlength : message.length ≤ 2 ^ 31 - 1 := by decide
  obtain ⟨hmem, -, e, he, hof⟩ := tokenized .fourByte hlength
  rw [hfound] at hmem
  refine ⟨hlength, hmem, e, he, hof, ?_⟩
  rw [hof.logType, hfound]
  decide +kernel

end Encoded

end LogCodec
