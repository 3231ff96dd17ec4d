import LogCodec.Proofs.Message.InPlace
import LogCodec.Proofs.Reader.Terminal
import LogCodec.Stream.InPlace

/-! # Serializers and deserializers leave nothing behind

    What is left in the buffers of a serializer or a deserializer is never read again.

    * `Serializer.recordOf`: what a record depends on.
    * `Serializer.InPlace.serialize_spec`, `Deserializer.InPlace.readNext_spec`,
      `Deserializer.InPlace.search_spec`: with buffers that are used again, a call comes to
      what it comes to without them.
    * `Agrees`: two serializers, or two deserializers, are alike but for what is in their
      buffers.  Every call keeps this, and both give the same answer.
    * `unaffected_by_buffers`: so it is for all sequences of calls, and for encoders and
      decoders. -/

namespace LogCodec

/-! ### Records -/

namespace Record

variable {w : Width}

/-- Writing a record behind other bytes comes to the record, or fails as it does. -/
theorem putOnto_spec (r : Record w) (out : Bytes) :
    (∃ error out', r.toBytes = .error error ∧ r.putOnto out = (.error error, out')) ∨
      ∃ record, r.toBytes = .ok record ∧ r.putOnto out = (.ok (), out ++ record) := by
  unfold toBytes putOnto
  dsimp only [putAllCounted, putCounted]
  cases lengthField r.encoded.logType.length with
  | error error => exact .inl ⟨error, _, rfl, rfl⟩
  | ok logTypeLength =>
    cases lengthField r.encoded.inline.length with
    | error error => exact .inl ⟨error, _, rfl, rfl⟩
    | ok inlineCount =>
      cases lengthField r.encoded.dictionary.length with
      | error error => exact .inl ⟨error, _, rfl, rfl⟩
      | ok dictionaryLength =>
        cases lengthField r.encoded.ends.length with
        | error error => exact .inl ⟨error, _, rfl, rfl⟩
        | ok endCount => exact .inr ⟨_, rfl, by simp⟩

end Record

/-! ### Serializers -/

namespace Serializer

/-- The record of an event in a stream of this width, with this running timestamp. -/
def recordOf (w : Width) (running : Option Int64) (event : Event) : Result Bytes := do
  let encoded ← Encoded.ofMessage w event.message
  Record.toBytes ⟨encoded, running.elim event.timestamp (event.timestamp - ·)⟩

theorem serialize_eq (s : Serializer) (event : Event) :
    s.serialize event =
      if s.closed then .error .closed
      else (recordOf s.width s.runningTimestamp? event).map (·, s.setRunning event.timestamp) := by
  have hstored : s.runningTimestamp?.elim event.timestamp (event.timestamp - ·) =
      s.storedTime event.timestamp := by
    unfold runningTimestamp? storedTime
    cases s.width <;> rfl
  unfold serialize recordOf
  rw [hstored]
  by_cases hclosed : s.closed = true
  · rw [if_pos hclosed, if_pos hclosed]
    rfl
  · rw [if_neg hclosed, if_neg hclosed]
    cases Encoded.ofMessage s.width event.message with
    | error error => rfl
    | ok encoded =>
      show (Record.toBytes ⟨encoded, s.storedTime event.timestamp⟩ >>= fun record =>
          pure (record, s.setRunning event.timestamp)) =
        (Record.toBytes ⟨encoded, s.storedTime event.timestamp⟩).map _
      cases Record.toBytes ⟨encoded, s.storedTime event.timestamp⟩ <;> rfl

/-- A call of a serializer. -/
inductive Operation where
  | serialize (event : Event)
  | setRunning (timestamp : Int64)
  | close

/-- What is seen of a call from outside: the record if one was asked for, and the state. -/
structure Reply where
  record : Option (Result Bytes)
  running : Option Int64
  closed : Bool

namespace InPlace

/-- Makes a call. -/
def run (x : InPlace) : Operation → Option (Result Bytes) × InPlace
  | .serialize event => (some (x.serialize event).1, (x.serialize event).2)
  | .setRunning timestamp => (none, x.setRunning timestamp)
  | .close => (none, x.close)

/-- The replies to calls one after another. -/
def replies (x : InPlace) : List Operation → List Reply
  | [] => []
  | operation :: rest =>
    ⟨(x.run operation).1, (x.run operation).2.runningTimestamp?, (x.run operation).2.closed⟩ ::
      (x.run operation).2.replies rest

/-- The serializers are alike but for what is in their buffers. -/
structure Agrees (x y : InPlace) : Prop where
  width : x.width = y.width
  running : x.runningTimestamp? = y.runningTimestamp?
  closed : x.closed = y.closed

theorem toSerializer_setRunning (x : InPlace) (timestamp : Int64) :
    (x.setRunning timestamp).toSerializer = x.toSerializer.setRunning timestamp := by
  obtain ⟨⟨width, info, running, closed⟩, encoded, record⟩ := x
  cases width <;> rfl

/-- Making a record in place comes to the same record, or fails in the same way. -/
theorem serialize_spec (x : InPlace) (event : Event) :
    (∃ error x', x.toSerializer.serialize event = .error error ∧
        x.serialize event = (.error error, x') ∧ x'.toSerializer = x.toSerializer) ∨
      ∃ record x', x.toSerializer.serialize event = .ok (record, x'.toSerializer) ∧
        x.serialize event = (.ok record, x') := by
  unfold serialize Serializer.serialize
  by_cases hclosed : x.closed = true
  · refine .inl ⟨.closed, x, ?_, if_pos hclosed, rfl⟩
    rw [if_pos hclosed]
    rfl
  simp only [if_neg hclosed]
  rw [x.encoded.encode_spec]
  cases hencode : x.encoded.encode event.message with
  | mk result encoded =>
    cases result with
    | error error => exact .inl ⟨error, _, rfl, rfl, rfl⟩
    | ok =>
      rcases Record.putOnto_spec ⟨encoded.contents, x.storedTime event.timestamp⟩ [] with
        ⟨error, out, hrecord, hput⟩ | ⟨record, hrecord, hput⟩
      · refine .inl ⟨error, { x with encoded := encoded, record := [] }, ?_, ?_, rfl⟩
        · show (Record.toBytes ⟨encoded.contents, x.storedTime event.timestamp⟩ >>= _) = _
          rw [hrecord]
          rfl
        · dsimp only
          rw [show Record.putOnto ⟨encoded.contents, _⟩ [] = _ from hput]
      · refine .inr ⟨record,
          setRunning { x with encoded := encoded, record := record } event.timestamp, ?_, ?_⟩
        · show (Record.toBytes ⟨encoded.contents, x.storedTime event.timestamp⟩ >>= _) = _
          rw [hrecord, toSerializer_setRunning]
          rfl
        · dsimp only
          rw [show Record.putOnto ⟨encoded.contents, _⟩ [] = _ from hput]
          rfl

/-- **A record depends** on the width, the running timestamp and the event, in a
    serializer that is not closed. -/
theorem serialize_eq_recordOf (x : InPlace) (event : Event) :
    (x.serialize event).1 =
      if x.closed then .error .closed else recordOf x.width x.runningTimestamp? event := by
  have hrecord : (x.toSerializer.serialize event).map Prod.fst =
      if x.closed then .error .closed else recordOf x.width x.runningTimestamp? event := by
    rw [serialize_eq]
    split
    · rfl
    · cases recordOf x.width x.runningTimestamp? event <;> rfl
  rw [← hrecord]
  rcases x.serialize_spec event with ⟨error, x', hresult, hserialize, -⟩ |
    ⟨record, x', hresult, hserialize⟩
  · rw [hresult, hserialize]
    rfl
  · rw [hresult, hserialize]
    rfl

theorem runningTimestamp?_setRunning (x : InPlace) (timestamp : Int64) :
    (x.setRunning timestamp).runningTimestamp? = x.width.running? timestamp := by
  obtain ⟨⟨width, info, running, closed⟩, encoded, record⟩ := x
  cases width <;> rfl

/-- What a call leaves but for what is in the buffers depends on its answer alone. -/
theorem after_serialize (x : InPlace) (event : Event) :
    (x.serialize event).2.width = x.width ∧ (x.serialize event).2.closed = x.closed ∧
      (x.serialize event).2.runningTimestamp? =
        match (x.serialize event).1 with
        | .ok _ => x.width.running? event.timestamp
        | .error _ => x.runningTimestamp? := by
  rcases x.serialize_spec event with ⟨error, x', -, hserialize, hsame⟩ |
    ⟨record, x', hresult, hserialize⟩
  · rw [hserialize]
    dsimp only
    rw [hsame]
    exact ⟨rfl, rfl, rfl⟩
  · rw [hserialize]
    rw [Serializer.serialize_eq] at hresult
    split at hresult
    · cases hresult
    · cases hrecord : recordOf x.width x.runningTimestamp? event with
      | error error =>
        rw [hrecord] at hresult
        cases hresult
      | ok record' =>
        rw [hrecord] at hresult
        obtain ⟨-, hafter⟩ := Prod.mk.inj (Except.ok.inj hresult)
        dsimp only
        rw [← hafter, ← toSerializer_setRunning]
        exact ⟨rfl, rfl, x.runningTimestamp?_setRunning event.timestamp⟩

/-- The step.  Serializers that are alike give the same answer, and are alike then. -/
theorem Agrees.run {x y : InPlace} (h : x.Agrees y) (operation : Operation) :
    (x.run operation).1 = (y.run operation).1 ∧ (x.run operation).2.Agrees (y.run operation).2 := by
  cases operation with
  | serialize event =>
    have hanswer : (x.serialize event).1 = (y.serialize event).1 := by
      rw [serialize_eq_recordOf, serialize_eq_recordOf, h.closed, h.width, h.running]
    obtain ⟨hwidth, hclosed, hrunning⟩ := x.after_serialize event
    obtain ⟨hwidth', hclosed', hrunning'⟩ := y.after_serialize event
    refine ⟨congrArg some hanswer, ?_, ?_, ?_⟩
    · exact hwidth.trans (h.width.trans hwidth'.symm)
    · exact hrunning.trans (by rw [hanswer, h.width, h.running, ← hrunning']; rfl)
    · exact hclosed.trans (h.closed.trans hclosed'.symm)
  | setRunning timestamp =>
    refine ⟨rfl, h.width, ?_, h.closed⟩
    show (x.setRunning timestamp).runningTimestamp? = (y.setRunning timestamp).runningTimestamp?
    rw [runningTimestamp?_setRunning, runningTimestamp?_setRunning, h.width]
  | close => exact ⟨rfl, h.width, h.running, rfl⟩

/-- The run.  So they give the same answers to all calls. -/
theorem Agrees.replies {x y : InPlace} (h : x.Agrees y) (operations : List Operation) :
    x.replies operations = y.replies operations := by
  induction operations generalizing x y with
  | nil => rfl
  | cons operation rest ih =>
    obtain ⟨hanswer, hafter⟩ := h.run operation
    rw [InPlace.replies, InPlace.replies, hanswer, hafter.running, hafter.closed, ih hafter]

end InPlace

end Serializer

/-! ### Deserializers -/

namespace Deserializer.InPlace

section

variable {x : InPlace} {bytes : Bytes} {e : Encoded x.width} {text : Bytes}

theorem writeText_of_text (h : e.render = ⟨text, none⟩) :
    writeText { x with encoded := .ofEncoded e } =
      (.ok (), { x with text := text, encoded := .ofEncoded e }) := by
  have hrender : e.renderOnto [] = ⟨text, none⟩ := h
  simp only [writeText, EncodedBuffer.contents_ofEncoded, hrender]

theorem writeText_of_fault {fault : DecodeFault} (h : e.render = ⟨text, some fault⟩) :
    writeText { x with encoded := .ofEncoded e } =
      (.error (.decode fault), { x with text := text, encoded := .ofEncoded e }) := by
  have hrender : e.renderOnto [] = ⟨text, some fault⟩ := h
  simp only [writeText, EncodedBuffer.contents_ofEncoded, hrender]

theorem render_of_writeText_ok {x' : InPlace}
    (h : writeText { x with encoded := .ofEncoded e } = (.ok (), x')) :
    ∃ text, e.render = ⟨text, none⟩ ∧ x' = { x with text := text, encoded := .ofEncoded e } := by
  cases hrender : e.render with
  | mk text fault =>
    cases fault with
    | none =>
      cases (writeText_of_text hrender).symm.trans h
      exact ⟨text, rfl, rfl⟩
    | some fault => cases (writeText_of_fault hrender).symm.trans h

theorem render_of_writeText_error {x' : InPlace} {error : Error}
    (h : writeText { x with encoded := .ofEncoded e } = (.error error, x')) :
    ∃ text fault, e.render = ⟨text, some fault⟩ ∧ error = .decode fault ∧
      x' = { x with text := text, encoded := .ofEncoded e } := by
  cases hrender : e.render with
  | mk text fault =>
    cases fault with
    | none => cases (writeText_of_text hrender).symm.trans h
    | some fault =>
      cases (writeText_of_fault hrender).symm.trans h
      exact ⟨text, fault, rfl, rfl, rfl⟩

end

/-- Reading an event in place comes to the same event, or fails in the same way. -/
theorem readNext_spec (x : InPlace) (bytes : Bytes) :
    (x.readNext bytes).1 = (x.next bytes).1 ∧
      (x.readNext bytes).2.toDeserializer = (x.next bytes).2 := by
  unfold readNext
  rcases x.readRecord_spec bytes with ⟨error, x', hread, hstep⟩ |
    ⟨e, timestamp, size, hstep, hread⟩
  · rw [hread]
    simp only [next, hstep, and_self]
  · rw [hread]
    cases hrender : e.render with
    | mk text fault =>
      cases fault with
      | some fault =>
        simp only [writeText_of_fault hrender, next_of_fault hstep hrender, true_and]
        rfl
      | none =>
        simp only [writeText_of_text hrender, next_of_text hstep hrender]
        exact ⟨rfl, rfl⟩

section

variable {x x' : InPlace} {bytes : Bytes}

theorem step_of_readRecord_error {error : Error} (h : x.readRecord bytes = (.error error, x')) :
    x.step bytes = .stop error x'.toDeserializer := by
  rcases x.readRecord_spec bytes with ⟨error', x'', hread, hstep⟩ | ⟨_, _, _, -, hread⟩
  · cases hread.symm.trans h
    exact hstep
  · cases hread.symm.trans h

theorem step_of_readRecord_ok {size : Nat} {timestamp : Int64}
    (h : x.readRecord bytes = (.ok (size, timestamp), x')) :
    ∃ e, x.step bytes = .event e timestamp size ∧ x' = { x with encoded := .ofEncoded e } := by
  rcases x.readRecord_spec bytes with ⟨_, _, hread, -⟩ | ⟨e, _, _, hstep, hread⟩
  · cases hread.symm.trans h
  · cases hread.symm.trans h
    exact ⟨e, hstep, rfl⟩

end

/-- A search in place, from a place where some bytes were used. -/
theorem searchFrom_spec (x : InPlace) (interval : Interval) (matcher : Matcher) (consumed : Nat)
    (bytes : Bytes) :
    x.findFrom interval matcher.find? consumed bytes =
      ⟨(x.searchFrom interval matcher consumed bytes).1.map fun query =>
          ⟨(x.searchFrom interval matcher consumed bytes).2.2.lastEvent, query⟩,
        (x.searchFrom interval matcher consumed bytes).2.1,
        (x.searchFrom interval matcher consumed bytes).2.2.toDeserializer⟩ := by
  fun_induction searchFrom x interval matcher consumed bytes with
  | case1 x consumed bytes x' hread =>
    have hstep := step_of_readRecord_error hread
    have hafter := after_of_step_incomplete hstep
    rw [hafter] at hstep
    rw [findFrom_incomplete hstep]
    dsimp only [Except.map]
    rw [hafter]
  | case2 x consumed bytes error x' hne hread =>
    exact findFrom_stop (step_of_readRecord_error hread) hne
  | case3 x consumed bytes size timestamp x' hread hinside error x'' hwrite =>
    obtain ⟨e, hstep, rfl⟩ := step_of_readRecord_ok hread
    obtain ⟨text, fault, hrender, rfl, rfl⟩ := render_of_writeText_error hwrite
    exact findFrom_fault hstep hinside hrender
  | case4 x consumed bytes size timestamp x' hread hinside done x'' hwrite y query hfind =>
    obtain ⟨e, hstep, rfl⟩ := step_of_readRecord_ok hread
    obtain ⟨text, hrender, rfl⟩ := render_of_writeText_ok hwrite
    exact findFrom_found hstep hinside hrender hfind
  | case5 x consumed bytes size timestamp x' hread hinside done x'' hwrite y hfind ih =>
    obtain ⟨e, hstep, rfl⟩ := step_of_readRecord_ok hread
    obtain ⟨text, hrender, rfl⟩ := render_of_writeText_ok hwrite
    exact (findFrom_skip hstep hinside hrender hfind).trans ih
  | case6 x consumed bytes size timestamp x' hread houtside ih =>
    obtain ⟨e, hstep, rfl⟩ := step_of_readRecord_ok hread
    exact (findFrom_outside hstep (by simpa using houtside)).trans ih

/-- A search in place comes to the same match, or fails in the same way. -/
theorem search_spec (x : InPlace) (interval : Interval) (matcher : Matcher) (bytes : Bytes) :
    x.find interval matcher bytes =
      ⟨(x.search interval matcher bytes).1, (x.search interval matcher bytes).2.1,
        (x.search interval matcher bytes).2.2.toDeserializer⟩ :=
  x.searchFrom_spec interval matcher 0 bytes

/-! ### Calls of a deserializer -/

/-- Makes a call.  Closing it gives no answer. -/
def run (x : InPlace) : Operation → Option Call.Reply × InPlace
  | .call (.next bytes) =>
    let (result, x) := x.readNext bytes
    (some ⟨result.map fun (event, _) => (event, none), bytes.take (used result),
      x.runningTimestamp?, x.ended⟩, x)
  | .call (.find interval queries bytes) =>
    let (result, consumed, x) := x.search interval (Matcher.ofQueries queries) bytes
    (some ⟨result.map fun found => (found.event, some found.query), bytes.take consumed,
      x.runningTimestamp?, x.ended⟩, x)
  | .close => (none, x.release)

/-- The replies to calls one after another, and whether the deserializer is closed then. -/
def replies (x : InPlace) : List Operation → List (Option Call.Reply × Bool)
  | [] => []
  | operation :: rest =>
    ((x.run operation).1, (x.run operation).2.closed) :: (x.run operation).2.replies rest

/-- What a deserializer without buffers replies. -/
def plainReply (d : Deserializer) : Operation → Option Call.Reply
  | .call call => some (call.run d).1
  | .close => none

/-- Every call comes to what it comes to without buffers. -/
theorem run_spec (x : InPlace) (operation : Operation) :
    (x.run operation).1 = plainReply x.toDeserializer operation ∧
      (x.run operation).2.toDeserializer = operation.run x.toDeserializer := by
  cases operation with
  | close => exact ⟨rfl, rfl⟩
  | call call =>
    cases call with
    | next bytes =>
      obtain ⟨hresult, hafter⟩ := x.readNext_spec bytes
      simp only [run, plainReply, Operation.run, Call.run, hresult, hafter, and_self]
    | find interval queries bytes =>
      have hfind := x.search_spec interval (Matcher.ofQueries queries) bytes
      simp only [run, plainReply, Operation.run, Call.run, hfind, and_self]

/-- The deserializers are alike but for what is in their buffers. -/
structure Agrees (x y : InPlace) : Prop where
  width : x.width = y.width
  running : x.runningTimestamp? = y.runningTimestamp?
  ended : x.ended = y.ended
  closed : x.closed = y.closed

theorem agrees_refit {x y : InPlace} {residue : Residue}
    (h : y.toDeserializer = x.toDeserializer.refit residue) : x.Agrees y := by
  refine ⟨?_, ?_, ?_, ?_⟩
  · rw [h]
    rfl
  · rw [h, runningTimestamp?_refit]
  · rw [h]
    rfl
  · rw [h]
    rfl

theorem Agrees.exists_refit {x y : InPlace} (h : x.Agrees y) :
    ∃ residue, y.toDeserializer = x.toDeserializer.refit residue := by
  obtain ⟨⟨width, info, running, text, timestamp, ended, closed⟩, encoded⟩ := x
  obtain ⟨⟨width', info', running', text', timestamp', ended', closed'⟩, encoded'⟩ := y
  obtain ⟨hwidth, hrunning, hended, hclosed⟩ := h
  dsimp only at hwidth hended hclosed
  subst hwidth hended hclosed
  refine ⟨⟨info', running', text', timestamp'⟩, ?_⟩
  cases width with
  | fourByte =>
    obtain rfl : running = running' := Option.some.inj hrunning
    rfl
  | eightByte => rfl

/-- The step.  Deserializers that are alike give the same answer, and are alike then. -/
theorem Agrees.run {x y : InPlace} (h : x.Agrees y) (operation : Operation) :
    (x.run operation).1 = (y.run operation).1 ∧ (x.run operation).2.Agrees (y.run operation).2 := by
  obtain ⟨hanswer, hafter⟩ := x.run_spec operation
  obtain ⟨hanswer', hafter'⟩ := y.run_spec operation
  obtain ⟨residue, hrefit⟩ := h.exists_refit
  rw [hrefit] at hanswer' hafter'
  cases operation with
  | close => exact ⟨rfl, h.width, h.running, h.ended, rfl⟩
  | call call =>
    obtain ⟨residue', hrun⟩ := run_refit call x.toDeserializer residue
    have hsame : (y.run (.call call)).2.toDeserializer =
        (x.run (.call call)).2.toDeserializer.refit residue' := by
      rw [hafter, hafter', Operation.run, Operation.run, hrun]
    refine ⟨?_, agrees_refit hsame⟩
    rw [hanswer, hanswer', plainReply, plainReply, hrun]

/-- The run.  So they give the same answers to all calls. -/
theorem Agrees.replies {x y : InPlace} (h : x.Agrees y) (operations : List Operation) :
    x.replies operations = y.replies operations := by
  induction operations generalizing x y with
  | nil => rfl
  | cons operation rest ih =>
    obtain ⟨hanswer, hafter⟩ := h.run operation
    rw [InPlace.replies, InPlace.replies, hanswer, hafter.closed, ih hafter]

end Deserializer.InPlace

/-! ### Together -/

/-- **What is in the buffers does not matter.**  An encoder and a decoder that were used
    before treat each message as new ones do.  A record depends on the width, the running
    timestamp and the event.  Serializers that are alike but for their buffers give the same
    answers to all calls from then on, and so do deserializers. -/
theorem unaffected_by_buffers {w : Width} (encoder : Encoder w) (messages : List Bytes)
    (decoder : Decoder) (encoded : List ((w : Width) × Encoded w))
    {s s' : Serializer.InPlace} (hs : s.Agrees s') (event : Event)
    (requests : List Serializer.Operation) {d d' : Deserializer.InPlace} (hd : d.Agrees d')
    (operations : List Deserializer.Operation) :
    encoder.encodeAll messages = messages.map (Encoded.ofMessage w) ∧
      decoder.decodeAll encoded = encoded.map (fun message => message.2.decode) ∧
      (s.serialize event).1 = (if s.closed then .error .closed
        else Serializer.recordOf s.width s.runningTimestamp? event) ∧
      s.replies requests = s'.replies requests ∧
      d.replies operations = d'.replies operations :=
  ⟨encoder.encodeAll_eq messages, decoder.decodeAll_eq encoded, s.serialize_eq_recordOf event,
    hs.replies requests, hd.replies operations⟩

/-- Buffers that were left half filled, beside empty ones. -/
theorem unaffected_by_buffers_half_filled :
    let encoder : Encoder .fourByte := ⟨⟨#[0x41, 0x12], #[7], #[0x61], #[]⟩⟩
    let messages : List Bytes := [[0x61, 0x3D, 0x62], []]
    let decoder : Decoder := ⟨[0x41]⟩
    let encoded : List ((w : Width) × Encoded w) :=
      [⟨.eightByte, [0x61, 0x11], [], [], []⟩, ⟨.fourByte, [0x11], [7], [], []⟩]
    let s := Serializer.InPlace.ofSerializer ⟨.fourByte, ⟨"", "", ""⟩, 5, false⟩
    let s' : Serializer.InPlace := { s with encoded := encoder.buffer, record := [0x01, 0x00] }
    let event : Event := ⟨[0x61], 9⟩
    let requests : List Serializer.Operation := [.serialize event, .close, .serialize event]
    let d := Deserializer.InPlace.ofDeserializer (.ofPreamble ⟨.eightByte, ⟨"", "", ""⟩, 0⟩)
    let d' : Deserializer.InPlace :=
      { d with running := 3, text := [0x41], encoded := ⟨#[0x12], #[], #[0x61], #[1]⟩ }
    let operations : List Deserializer.Operation := [.call (.next [0x01]), .call (.next [0x00])]
    s.Agrees s' ∧ d.Agrees d' ∧ encoder.encodeAll messages = messages.map (Encoded.ofMessage _) ∧
      decoder.decodeAll encoded = encoded.map (fun message => message.2.decode) ∧
      (s.serialize event).1 = (if s.closed then .error .closed
        else Serializer.recordOf s.width s.runningTimestamp? event) ∧
      s.replies requests = s'.replies requests ∧
      d.replies operations = d'.replies operations := by
  intro encoder messages decoder encoded s s' event requests d d' operations
  have hs : s.Agrees s' := ⟨rfl, rfl, rfl⟩
  have hd : d.Agrees d' := ⟨rfl, rfl, rfl, rfl⟩
  exact ⟨hs, hd, unaffected_by_buffers encoder messages decoder encoded hs event requests hd
    operations⟩

end LogCodec
