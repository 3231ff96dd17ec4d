import LogCodec.Message.Rendering
import LogCodec.Proofs.Message.LogType
import LogCodec.Proofs.Message.Number
import Mathlib.Algebra.Ring.Nat

/-! # Messages survive encoding

    A message is cut into runs, each run becomes a part, and the fields of the
    encoded message are read off the parts.  Rendering sees only the fields.
    The proof goes through the parts that are still to be written:

    * `Part.Renders`: a part is written as these bytes.
    * `Rendering.Stage.ofParts`: the stage in which a list of parts is left.
      It is the invariant of the rendering loop, and every part takes the
      stage of its list to the stage of the rest.
    * `renderItems_parts`: from that stage, rendering writes the texts of all
      parts and ends well. -/

namespace LogCodec

variable {w : Width}

/-! ### Parts and what they are written as -/

namespace Part

/-- The part is written as these bytes. -/
def Renders : Part w → Bytes → Prop
  | text bytes, out => bytes = out
  | integer v, out => Number.integerText v = out
  | float v, out => Number.floatText v = .ok out
  | dictionary token, out => token = out

/-- A variable is written as it was, whichever form it is stored in. -/
theorem renders_ofToken (token : Bytes) : (ofToken w token).Renders token := by
  unfold ofToken
  split
  · -- an integer in range
    rename_i hv
    exact Number.integerText_of_encodeInteger? hv
  · split
    · -- a float that fits
      rename_i hv
      exact Number.floatText_of_encodeFloat? hv
    · -- anything else is stored as it is
      rfl

theorem renders_ofRun (run : Run) : (ofRun w run).Renders run.bytes := by
  unfold ofRun
  split
  · exact renders_ofToken run.bytes
  · rfl

/-- What a run puts into the dictionary are its own bytes. -/
theorem token?_ofRun {run : Run} {token : Bytes} (h : (ofRun w run).token? = some token) :
    token = run.bytes := by
  have hrenders := renders_ofRun (w := w) run
  cases hpart : ofRun w run with
  | dictionary token' =>
    rw [hpart] at hrenders h
    exact (Option.some.inj h).symm.trans hrenders
  | text | integer | float =>
    rw [hpart] at h
    cases h

/-- The parts of a message are written as its runs. -/
theorem renders_ofRuns (runs : List Run) :
    List.Forall₂ Renders (runs.map (ofRun w)) (runs.map Run.bytes) := by
  induction runs with
  | nil => exact .nil
  | cons run rest ih => exact .cons (renders_ofRun run) ih

end Part

/-! ### Ends of dictionary variables -/

namespace Encoded

theorem length_endsFrom (start : Nat) (entries : List Bytes) :
    (endsFrom start entries).length = entries.length := by
  induction entries generalizing start with
  | nil => rfl
  | cons entry rest ih => rw [endsFrom, List.length_cons, List.length_cons, ih]

theorem le_of_mem_endsFrom {start stop : Nat} {entries : List Bytes}
    (h : stop ∈ endsFrom start entries) : stop ≤ start + entries.flatten.length := by
  induction entries generalizing start with
  | nil => cases h
  | cons entry rest ih =>
    rw [List.flatten_cons, List.length_append]
    rcases List.mem_cons.1 h with rfl | h
    · omega
    · have := ih h
      omega

/-- An end within the bound is kept in 32 bits. -/
theorem toInt_ofNat_end {stop : Nat} (h : stop ≤ endMax) :
    (BitVec.ofNat (Width.bits .fourByte) stop).toInt = (stop : Int) := by
  simp only [endMax] at h
  rw [BitVec.toInt_ofNat']
  simp only [Width.bits, Width.size]
  rw [Int.bmod_eq_of_le] <;> omega

end Encoded

/-! ### Stages of rendering -/

namespace Rendering.Stage

/-- The stage in which these parts are left, when the dictionary was used up to
    `start`. -/
def ofParts (written : Bytes) (start : Nat) (parts : List (Part w)) : Stage w where
  written := written
  inline := parts.filterMap Part.inline?
  ends := (Encoded.endsFrom start (parts.filterMap Part.token?)).map (BitVec.ofNat _)
  start := start
  dictionary := (parts.filterMap Part.token?).flatten

theorem reverse_written_put (s : Stage w) (bytes : Bytes) :
    (s.put bytes).written.reverse = s.written.reverse ++ bytes := by
  simp [put, List.reverseAux_eq]

/-- The next dictionary variable is that of the first dictionary part. -/
theorem nextToken?_ofParts {written : Bytes} {start : Nat} {token : Bytes}
    {parts : List (Part w)} (h : start + token.length ≤ Encoded.endMax) :
    (ofParts written start (.dictionary token :: parts)).nextToken? =
      some (token, ofParts written (start + token.length) parts) := by
  have hentries : (Part.dictionary token :: parts).filterMap Part.token? =
      token :: parts.filterMap Part.token? := rfl
  have hsize : ((start + token.length : Nat) - (start : Int)).toNat = token.length := by omega
  have hsplit := (@Bytes.splitExact?_eq_some_iff token.length _ token
    (parts.filterMap Part.token?).flatten).2 ⟨rfl, rfl⟩
  simp only [nextToken?, ofParts, hentries, Encoded.endsFrom, List.map_cons, List.flatten_cons,
    Encoded.toInt_ofNat_end h, hsize, hsplit]
  rw [if_pos (by omega)]
  rfl

end Rendering.Stage

namespace Encoded

open Rendering (Stage)

/-! ### One item -/

section

variable (e : Encoded w) (items : List LogType.Item)

/-- Literals are written one by one. -/
theorem renderItems_literals (text : Bytes) (s : Stage w) :
    e.renderItems (text.map .literal ++ items) s = e.renderItems items (s.put text) := by
  induction text generalizing s with
  | nil => rfl
  | cons b text ih =>
    rw [List.map_cons, List.cons_append, renderItems, ih]
    rfl

variable {s : Stage w} {v : Variable w} (inline : List (Variable w))

theorem renderItems_integer (hs : s.inline = v :: inline) :
    e.renderItems (.placeholder .integer :: items) s =
      e.renderItems items ({ s with inline := inline }.put (Number.integerText v)) := by
  rw [renderItems, hs]

theorem renderItems_float {text : Bytes} (hs : s.inline = v :: inline)
    (hv : Number.floatText v = .ok text) :
    e.renderItems (.placeholder .float :: items) s =
      e.renderItems items ({ s with inline := inline }.put text) := by
  rw [renderItems, hs]
  simp only [hv]

theorem renderItems_dictionary {entry : Bytes} {s' : Stage w}
    (hs : s.nextToken? = some (entry, s')) :
    e.renderItems (.placeholder .dictionary :: items) s = e.renderItems items (s'.put entry) := by
  rw [renderItems, hs]

end

/-! ### The rendering loop -/

/-- Rendering the parts that are left writes their texts, and uses up all
    variables. -/
theorem renderItems_parts (e : Encoded w) {parts : List (Part w)} {texts : List Bytes}
    (h : List.Forall₂ Part.Renders parts texts) (written : Bytes) (start : Nat)
    (hends : ∀ stop ∈ endsFrom start (parts.filterMap Part.token?), stop ≤ endMax) :
    e.renderItems (LogType.items (parts.flatMap Part.logType)) (.ofParts written start parts) =
      ⟨written.reverse ++ texts.flatten, none⟩ := by
  -- on the parts that are left; `written` and `start` move with them
  induction h generalizing written start with
  | nil => simp [LogType.items, renderItems, Stage.ofParts, Stage.stop, endsFrom]
  | @cons part out parts texts hpart hrest ih =>
    -- whatever the part is, its text is put behind what was written
    have hrest (start : Nat)
        (hends : ∀ stop ∈ endsFrom start (parts.filterMap Part.token?), stop ≤ endMax) :
        e.renderItems (LogType.items (parts.flatMap Part.logType))
          ((Stage.ofParts written start parts).put out) =
            ⟨written.reverse ++ (out :: texts).flatten, none⟩ := by
      have hput := Stage.reverse_written_put (Stage.ofParts written start parts) out
      rw [List.flatten_cons, ← List.append_assoc, ← show _ = written.reverse ++ out from hput]
      exact ih _ start hends
    rw [List.flatMap_cons]
    cases part with
    | text bytes =>
      obtain rfl : bytes = out := hpart
      rw [Part.logType, LogType.items_escape_append, renderItems_literals]
      exact hrest start hends
    | integer v =>
      obtain rfl : Number.integerText v = out := hpart
      rw [Part.logType, List.singleton_append, LogType.items_placeholder,
        renderItems_integer _ _ (parts.filterMap Part.inline?) rfl]
      exact hrest start hends
    | float v =>
      rw [Part.logType, List.singleton_append, LogType.items_placeholder,
        renderItems_float _ _ (parts.filterMap Part.inline?) rfl hpart]
      exact hrest start hends
    | dictionary token =>
      obtain rfl : token = out := hpart
      have hstop : start + token.length ≤ endMax := hends _ (List.mem_cons_self ..)
      rw [Part.logType, List.singleton_append, LogType.items_placeholder,
        renderItems_dictionary _ _ (Stage.nextToken?_ofParts hstop)]
      exact hrest _ fun stop hm => hends stop (List.mem_cons_of_mem _ hm)

/-! ### Encoding and rendering -/

/-- Parts can be encoded when no dictionary variable ends too late. -/
theorem ofParts_eq_ok_iff {parts : List (Part w)} {e : Encoded w} :
    ofParts parts = .ok e ↔
      (∀ stop ∈ endsFrom 0 (parts.filterMap Part.token?), stop ≤ endMax) ∧ assemble parts = e := by
  unfold ofParts
  split
  · rename_i stop hfind
    have hlt := List.find?_some hfind
    have hmem := List.mem_of_find?_eq_some hfind
    simp only [reduceCtorEq, false_iff]
    rintro ⟨hall, -⟩
    exact absurd (hall stop hmem) (by simpa using hlt)
  · rename_i hfind
    have hall : ∀ stop ∈ endsFrom 0 (parts.filterMap Part.token?), stop ≤ endMax := by
      intro stop hmem
      simpa using List.find?_eq_none.1 hfind stop hmem
    rw [Except.ok.injEq]
    exact ⟨fun h => ⟨hall, h⟩, fun h => h.2⟩

/-- What was encoded is rendered as the message, behind any bytes. -/
theorem renderOnto_of_ofMessage {message : Bytes} {e : Encoded w}
    (h : ofMessage w message = .ok e) (out : Bytes) :
    e.renderOnto out = ⟨out ++ message, none⟩ := by
  obtain ⟨hends, rfl⟩ := ofParts_eq_ok_iff.1 h
  have hrun := renderItems_parts (assemble ((Run.ofMessage message).map (Part.ofRun w)))
    (Part.renders_ofRuns (Run.ofMessage message)) out.reverse 0 hends
  rw [List.reverse_reverse, ← List.flatMap_def, Run.flatMap_bytes_ofMessage] at hrun
  exact hrun

/-- The dictionary variables of a message are some of its runs. -/
theorem length_entries_le (runs : List Run) :
    ((runs.map (Part.ofRun w)).filterMap Part.token?).flatten.length ≤
      (runs.flatMap Run.bytes).length := by
  induction runs with
  | nil => exact Nat.le_refl 0
  | cons run rest ih =>
    rw [List.map_cons, List.flatMap_cons, List.length_append]
    cases htoken : (Part.ofRun w run).token? with
    | none =>
      rw [List.filterMap_cons_none htoken]
      exact Nat.le_add_left_of_le ih
    | some token =>
      rw [List.filterMap_cons_some htoken, List.flatten_cons, List.length_append,
        Part.token?_ofRun htoken]
      exact Nat.add_le_add_left ih _

/-- A message whose length is a signed 32-bit number can be encoded. -/
theorem exists_ofMessage (w : Width) {message : Bytes} (h : message.length ≤ 2 ^ 31 - 1) :
    ∃ e, ofMessage w message = .ok e := by
  refine ⟨_, ofParts_eq_ok_iff.2 ⟨?_, rfl⟩⟩
  intro stop hstop
  have hle := le_of_mem_endsFrom hstop
  have hlength := length_entries_le (w := w) (Run.ofMessage message)
  rw [Run.flatMap_bytes_ofMessage] at hlength
  rw [endMax]
  omega

/-- **Messages survive encoding.**  Every message whose length is a signed 32-bit
    number can be encoded in both widths, and decoding puts exactly its bytes
    behind whatever was written before. -/
theorem decode_encode_message (w : Width) {message : Bytes}
    (h : message.length ≤ 2 ^ 31 - 1) :
    ∃ e, ofMessage w message = .ok e ∧ ∀ out, e.renderOnto out = ⟨out ++ message, none⟩ := by
  obtain ⟨e, he⟩ := exists_ofMessage w h
  exact ⟨e, he, renderOnto_of_ofMessage he⟩

/-- A reserved byte, a backslash, a negative float, a number with a leading zero
    and a byte outside ASCII, behind a byte that was there before. -/
theorem decode_encode_message_reserved :
    [0x11, 0x5C, 0x20, 0x2D, 0x30, 0x2E, 0x35, 0x20, 0x30, 0x37, 0xFF].length ≤ 2 ^ 31 - 1 ∧
      ∃ e, ofMessage .fourByte
          [0x11, 0x5C, 0x20, 0x2D, 0x30, 0x2E, 0x35, 0x20, 0x30, 0x37, 0xFF] = .ok e ∧
        e.renderOnto [0x41] =
          ⟨[0x41, 0x11, 0x5C, 0x20, 0x2D, 0x30, 0x2E, 0x35, 0x20, 0x30, 0x37, 0xFF], none⟩ := by
  refine ⟨by decide, ?_⟩
  obtain ⟨e, he, hrender⟩ := @decode_encode_message .fourByte
    [0x11, 0x5C, 0x20, 0x2D, 0x30, 0x2E, 0x35, 0x20, 0x30, 0x37, 0xFF] (by decide)
  exact ⟨e, he, hrender [0x41]⟩

end Encoded

end LogCodec
