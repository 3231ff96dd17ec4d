import LogCodec.Message.InPlace

/-! # Buffers that are used again leave nothing behind

    Encoding in place comes to what encoding in new buffers comes to, whatever the buffers
    held before; and so does decoding.

    * `Encoded.extend`: a message with more parts behind it.
    * `EncodedBuffer.put_spec`, `EncodedBuffer.putAll_spec`: what one part and what several
      parts add to the buffers, or where they fail.
    * `Encoder.encode_eq`, `Decoder.decode_eq`: one message.
    * `Encoder.encodeAll_eq`, `Decoder.decodeAll_eq`: messages one after another, of which
      some may fail. -/

namespace LogCodec

variable {w : Width}

namespace Encoded

/-! ### Messages part by part -/

/-- Is there an end that is too great, when these dictionary variables come behind so many
    bytes? -/
def checkEnds (start : Nat) (entries : List Bytes) : Result Unit :=
  match (endsFrom start entries).find? (endMax < ·) with
  | some size => .error (.encode (.dictionaryTooLong size))
  | none => .ok ()

theorem checkEnds_nil (start : Nat) : checkEnds start [] = .ok () := rfl

theorem checkEnds_cons (start : Nat) (entry : Bytes) (rest : List Bytes) :
    checkEnds start (entry :: rest) =
      if endMax < start + entry.length then
        .error (.encode (.dictionaryTooLong (start + entry.length)))
      else checkEnds (start + entry.length) rest := by
  unfold checkEnds
  rw [endsFrom, List.find?_cons]
  by_cases h : endMax < start + entry.length
  · simp only [decide_eq_true h, if_pos h]
  · simp only [decide_eq_false h, if_neg h]

theorem checkEnds_append (start : Nat) (entries rest : List Bytes) :
    checkEnds start (entries ++ rest) =
      checkEnds start entries >>= fun _ => checkEnds (start + entries.flatten.length) rest := by
  induction entries generalizing start with
  | nil => rfl
  | cons entry entries ih =>
    rw [List.cons_append, checkEnds_cons, checkEnds_cons]
    split
    · rfl
    · rw [ih, List.flatten_cons, List.length_append, Nat.add_assoc]

/-- The message with more parts behind it. -/
def extend (e : Encoded w) (parts : List (Part w)) : Encoded w where
  logType := e.logType ++ parts.flatMap Part.logType
  inline := e.inline ++ parts.filterMap Part.inline?
  dictionary := e.dictionary ++ (parts.filterMap Part.token?).flatten
  ends := e.ends ++
    (endsFrom e.dictionary.length (parts.filterMap Part.token?)).map (BitVec.ofNat _)

theorem extend_nil (e : Encoded w) : e.extend [] = e := by simp [extend, endsFrom]

theorem extend_extend (e : Encoded w) (part : Part w) (rest : List (Part w)) :
    (e.extend [part]).extend rest = e.extend (part :: rest) := by
  cases h : part.token? with
  | none => cases hv : part.inline? <;> simp [extend, h, hv, endsFrom]
  | some token => cases hv : part.inline? <;> simp [extend, h, hv, endsFrom]

theorem ofParts_eq (parts : List (Part w)) :
    ofParts parts = (checkEnds 0 (parts.filterMap Part.token?)).map fun _ =>
      extend ⟨[], [], [], []⟩ parts := by
  unfold ofParts checkEnds
  cases (endsFrom 0 (parts.filterMap Part.token?)).find? (endMax < ·) <;> rfl

end Encoded

open Encoded (checkEnds)

namespace EncodedBuffer

variable (b : EncodedBuffer w)

theorem length_dictionary_contents : b.contents.dictionary.length = b.dictionary.size :=
  Array.length_toList

/-! ### Encoding -/

/-- The step.  A part is written behind what is there, or its end is too great. -/
theorem put_spec (part : Part w) :
    (b.put part).1 = checkEnds b.dictionary.size part.token?.toList ∧
      ((b.put part).1 = .ok () → (b.put part).2.contents = b.contents.extend [part]) := by
  unfold put
  cases h : part.token? with
  | none =>
    refine ⟨rfl, fun _ => ?_⟩
    cases hv : part.inline? <;> simp [contents, Encoded.extend, h, hv, Encoded.endsFrom]
  | some token =>
    have hsize : (b.dictionary ++ token).size = b.dictionary.size + token.length := by
      rw [← Array.length_toList, Array.toList_appendList, List.length_append, Array.length_toList]
    simp only [hsize, Option.toList_some, Encoded.checkEnds_cons, Encoded.checkEnds_nil]
    by_cases hmax : Encoded.endMax < b.dictionary.size + token.length
    · simp [hmax]
    · refine ⟨by simp [hmax], fun _ => ?_⟩
      cases hv : part.inline? <;>
        simp [hmax, contents, Encoded.extend, h, hv, Encoded.endsFrom]

/-- The run.  All parts are written, or the first one is met whose end is too great. -/
theorem putAll_spec (parts : List (Part w)) :
    (b.putAll parts).1 = checkEnds b.dictionary.size (parts.filterMap Part.token?) ∧
      ((b.putAll parts).1 = .ok () → (b.putAll parts).2.contents = b.contents.extend parts) := by
  induction parts generalizing b with
  | nil => exact ⟨rfl, fun _ => b.contents.extend_nil.symm⟩
  | cons part rest ih =>
    obtain ⟨hresult, hcontents⟩ := b.put_spec part
    have hentries : (part :: rest).filterMap Part.token? =
        part.token?.toList ++ rest.filterMap Part.token? := by
      cases h : part.token? <;> simp [h]
    rw [putAll, hentries, Encoded.checkEnds_append, ← hresult]
    cases hput : b.put part with
    | mk result after =>
      rw [hput] at hcontents
      cases result with
      | error error => exact ⟨rfl, fun h => nomatch h⟩
      | ok =>
        have hafter : after.contents = b.contents.extend [part] := hcontents rfl
        have hsize : after.dictionary.size =
            b.dictionary.size + part.token?.toList.flatten.length := by
          rw [← length_dictionary_contents, hafter, ← length_dictionary_contents]
          cases h : part.token? <;> simp [Encoded.extend, h]
        obtain ⟨hrest, hwhole⟩ := ih after
        rw [hafter, Encoded.extend_extend, hsize] at *
        exact ⟨hrest, hwhole⟩

/-- A message comes to the same in any buffers. -/
theorem encode_spec (message : Bytes) :
    Encoded.ofMessage w message = (b.encode message).1.map fun _ => (b.encode message).2.contents := by
  obtain ⟨hresult, hcontents⟩ := b.clear.putAll_spec ((Run.ofMessage message).map (Part.ofRun w))
  rw [Encoded.ofMessage, Encoded.ofParts_eq]
  unfold encode
  rw [show checkEnds 0 _ = _ from hresult.symm]
  cases h : (b.clear.putAll ((Run.ofMessage message).map (Part.ofRun w))).1 with
  | error error => rfl
  | ok => exact congrArg Except.ok (hcontents h).symm

end EncodedBuffer

namespace Encoder

theorem encode_eq (x : Encoder w) (message : Bytes) :
    (x.encode message).1 = Encoded.ofMessage w message := by
  rw [x.buffer.encode_spec, encode]
  cases hencode : x.buffer.encode message with
  | mk result buffer => cases result <;> rfl

/-- **An encoder that is used again** encodes each message as if it was the first. -/
theorem encodeAll_eq (x : Encoder w) (messages : List Bytes) :
    x.encodeAll messages = messages.map (Encoded.ofMessage w) := by
  induction messages generalizing x with
  | nil => rfl
  | cons message rest ih => rw [encodeAll, encode_eq, ih, List.map_cons]

end Encoder

/-! ### Decoding -/

namespace Decoder

theorem decode_eq (x : Decoder) (e : Encoded w) : (x.decode e).1 = e.decode := by
  have hclear : x.clear.text = [] := rfl
  unfold decode put Encoded.decode Encoded.render
  rw [hclear]
  cases hrender : e.renderOnto [] with
  | mk text fault => cases fault <;> rfl

/-- **A decoder that is used again** decodes each message as if it was the first. -/
theorem decodeAll_eq (x : Decoder) (messages : List ((w : Width) × Encoded w)) :
    x.decodeAll messages = messages.map fun message => message.2.decode := by
  induction messages generalizing x with
  | nil => rfl
  | cons message rest ih => rw [decodeAll, decode_eq, ih, List.map_cons]

end Decoder

end LogCodec
