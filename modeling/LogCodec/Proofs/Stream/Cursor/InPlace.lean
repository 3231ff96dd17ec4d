import LogCodec.Proofs.Stream.Cursor
import LogCodec.Stream.Cursor.InPlace

/-! # Reads are all or nothing

    A read of a cursor passes all bytes of its field, or fails and moves nothing.

    * `Word.signed`: the integer whose two's complement some bytes are.
    * `Cursor.InPlace.Atomic`: a read succeeds if there are as many bytes as its field
      needs.  If not, it leaves the cursor as it is.
    * `Cursor.InPlace.Follows`: the read comes to what a read without a buffer comes to.
    * `Read.Exact`, `Read.Agrees`: both, for each kind of field.
    * `reads_atomic`: after any reads, from the front of any buffer. -/

namespace LogCodec

/-! ### Two's complement -/

namespace Word

/-- The integer whose two's complement these bytes are, the most significant one first. -/
def signed (bytes : Bytes) : Int :=
  if 2 * ofBytes bytes < 256 ^ bytes.length then ofBytes bytes
  else ofBytes bytes - (256 ^ bytes.length : Nat)

theorem toInt_ofNat_ofBytes {bits : Nat} {bytes : Bytes} (h : 256 ^ bytes.length = 2 ^ bits) :
    (BitVec.ofNat bits (ofBytes bytes)).toInt = signed bytes := by
  have hlt := ofBytes_lt bytes
  rw [signed, h, BitVec.toInt, BitVec.toNat_ofNat, Nat.mod_eq_of_lt (h ▸ hlt)]

theorem toInt_toInt64 {bytes : Bytes} (h : bytes.length = 8) :
    (toInt64 (ofBytes bytes)).toInt = signed bytes :=
  toInt_ofNat_ofBytes (h ▸ rfl : 256 ^ bytes.length = 2 ^ 64)

theorem toNat_uInt16 {bytes : Bytes} (h : bytes.length = 2) :
    (UInt16.ofNat (ofBytes bytes)).toNat = ofBytes bytes := by
  have hlt := ofBytes_lt bytes
  rw [h] at hlt
  exact UInt16.toNat_ofNat_of_lt' hlt

theorem toNat_uInt32 {bytes : Bytes} (h : bytes.length = 4) :
    (UInt32.ofNat (ofBytes bytes)).toNat = ofBytes bytes := by
  have hlt := ofBytes_lt bytes
  rw [h] at hlt
  exact UInt32.toNat_ofNat_of_lt' hlt

end Word

theorem Variable.toInt_ofBytes {w : Width} {bytes : Bytes} (h : bytes.length = w.size) :
    (ofBytes bytes : Variable w).toInt = Word.signed bytes :=
  Word.toInt_ofNat_ofBytes (h ▸ pow_size w)

namespace Cursor

/-- The variables are the words of the bytes, one after another. -/
theorem getElem?_splitVariables (w : Width) (count : Nat) (bytes : Bytes) {i : Nat}
    (h : i < count) :
    (splitVariables w count bytes)[i]? =
      some (Variable.ofBytes ((bytes.drop (i * w.size)).take w.size)) := by
  induction count generalizing bytes i with
  | zero => exact absurd h (Nat.not_lt_zero i)
  | succ count ih =>
    cases i with
    | zero => rw [splitVariables, Nat.zero_mul, List.drop_zero, List.getElem?_cons_zero]
    | succ i =>
      rw [splitVariables, List.getElem?_cons_succ, ih _ (Nat.lt_of_succ_lt_succ h), List.drop_drop,
        Nat.succ_mul, Nat.add_comm]

namespace InPlace

/-! ### What a read may do -/

/-- The bytes that were not read. -/
def rest (x : InPlace) : Bytes := x.buffer.drop x.pos

/-- The cursor without its buffer. -/
def view (x : InPlace) : Cursor := ⟨x.rest, x.pos⟩

/-- The number in front of what was not read. -/
def count (x : InPlace) : Nat := Word.ofBytes (x.rest.take lengthSize)

/-- **All or nothing.**  A field of this size is read whole, with a reply that is right for
    its bytes, and the cursor is moved past it.  If there are too few bytes, the reply is the
    refusal, and nothing is moved. -/
structure Atomic {ρ : Type} (x : InPlace) (read : InPlace → ρ × InPlace) (size : Nat)
    (refusal : ρ) (Right : Bytes → ρ → Prop) : Prop where
  refused : x.remaining < size → read x = (refusal, x)
  taken : size ≤ x.remaining → ∃ reply, Right (x.rest.take size) reply ∧
    read x = (reply, { x with pos := x.pos + size })

/-- The read gives the value that a read without a buffer gives, or fails if that does. -/
def Follows {α β : Type} (x : InPlace) (read : InPlace → Result α × InPlace) (f : α → β)
    (read? : Cursor → Option (β × Cursor)) : Prop :=
  read? x.view = (read x).1.toOption.map fun value => (f value, (read x).2.view)

section

variable {ρ : Type} {x : InPlace} {read : InPlace → ρ × InPlace} {size : Nat} {refusal : ρ}
  {Right Right' : Bytes → ρ → Prop}

theorem length_rest (x : InPlace) : x.rest.length = x.remaining := List.length_drop

theorem Atomic.imp (h : x.Atomic read size refusal Right)
    (himp : ∀ bytes reply, bytes.length = size → Right bytes reply → Right' bytes reply) :
    x.Atomic read size refusal Right' := by
  refine ⟨h.refused, fun hsize => ?_⟩
  obtain ⟨reply, hright, hread⟩ := h.taken hsize
  have hlength : (x.rest.take size).length = size := by
    rw [List.length_take, length_rest, Nat.min_eq_left hsize]
  exact ⟨reply, himp _ _ hlength hright, hread⟩

/-- A read keeps the buffer and stays inside it. -/
theorem Atomic.inside (h : x.Atomic read size refusal Right) (hpos : x.pos ≤ x.buffer.length) :
    (read x).2.buffer = x.buffer ∧ (read x).2.pos ≤ x.buffer.length := by
  by_cases hsize : size ≤ x.remaining
  · obtain ⟨reply, -, hread⟩ := h.taken hsize
    rw [hread]
    refine ⟨rfl, ?_⟩
    show x.pos + size ≤ x.buffer.length
    rw [remaining] at hsize
    omega
  · rw [h.refused (Nat.lt_of_not_le hsize)]
    exact ⟨rfl, hpos⟩

end

/-! ### Single fields -/

theorem atomic_readBytes (x : InPlace) (n : Nat) :
    x.Atomic (readBytes n) n (.error .incomplete) fun bytes reply => reply = .ok bytes := by
  refine ⟨fun hsize => if_pos hsize, fun hsize => ⟨_, rfl, ?_⟩⟩
  exact if_neg (Nat.not_lt_of_le hsize)

theorem atomic_readByte (x : InPlace) :
    x.Atomic readByte 1 (.error .incomplete)
      fun bytes reply => ∃ b, reply = .ok b ∧ bytes = [b] := by
  unfold readByte peek
  refine ⟨fun hsize => ?_, fun hsize => ?_⟩
  · have hnone : x.buffer[x.pos]? = none := by
      rw [List.getElem?_eq_none_iff]
      rw [remaining] at hsize
      omega
    simp only [hnone]
  · have hlt : x.pos < x.buffer.length := by
      rw [remaining] at hsize
      omega
    have hsome : x.buffer[x.pos]? = some x.buffer[x.pos] := List.getElem?_eq_getElem hlt
    refine ⟨.ok x.buffer[x.pos], ⟨_, rfl, ?_⟩, ?_⟩
    · rw [rest, List.drop_eq_getElem_cons hlt]
      rfl
    · simp only [hsome]

theorem atomic_readValue {α : Type} (x : InPlace) (n : Nat) (value : Bytes → α) :
    x.Atomic (readValue n value) n (.error .incomplete)
      fun bytes reply => reply = .ok (value bytes) := by
  unfold readValue
  refine ⟨fun hsize => ?_, fun hsize => ?_⟩
  · simp only [(x.atomic_readBytes n).refused hsize]
  · obtain ⟨_, rfl, hread⟩ := (x.atomic_readBytes n).taken hsize
    exact ⟨_, rfl, by simp only [hread]⟩

/-! ### Fields of several parts -/

/-- The number in front of what was not read is read as a word of 32 bits. -/
theorem readUInt32_of_le {x : InPlace} (h : lengthSize ≤ x.remaining) :
    ∃ value : UInt32, value.toNat = x.count ∧
      x.readUInt32 = (.ok value, { x with pos := x.pos + lengthSize }) := by
  obtain ⟨_, rfl, hread⟩ := (x.atomic_readValue lengthSize _).taken h
  have hlength : (x.rest.take lengthSize).length = lengthSize := by
    rw [List.length_take, length_rest, Nat.min_eq_left h]
  exact ⟨_, Word.toNat_uInt32 hlength, hread⟩

theorem readUInt32_of_lt {x : InPlace} (h : x.remaining < lengthSize) :
    x.readUInt32 = (.error .incomplete, x) :=
  (x.atomic_readValue lengthSize _).refused h

/-- No count of 32 bits is too great. -/
theorem variablesSize?_eq (count : UInt32) (w : Width) :
    variablesSize? count w = some (count.toNat * w.size) := by
  have hcount : count.toNat < 2 ^ 32 := count.toNat_lt
  have hsize : w.size ≤ 8 := by cases w <;> decide
  apply if_pos
  calc count.toNat * w.size
    _ ≤ count.toNat * 8 := Nat.mul_le_mul_left _ hsize
    _ < UInt64.size := by unfold UInt64.size; omega

section

variable (x : InPlace)

/-- The cursor behind the number in front. -/
theorem remaining_add (n : Nat) :
    InPlace.remaining { x with pos := x.pos + n } = x.remaining - n := by
  rw [remaining, remaining, Nat.sub_sub]

theorem rest_add (n : Nat) : InPlace.rest { x with pos := x.pos + n } = x.rest.drop n := by
  rw [rest, rest, List.drop_drop]

/-- The cursor is taken back if the bytes that are counted are not complete. -/
theorem atomic_readCounted :
    x.Atomic readCounted (lengthSize + x.count) (.error .incomplete)
      fun bytes reply => reply = .ok (bytes.drop lengthSize) := by
  by_cases hlength : lengthSize ≤ x.remaining
  · obtain ⟨length, hcount, hread⟩ := readUInt32_of_le hlength
    have hbytes := InPlace.atomic_readBytes { x with pos := x.pos + lengthSize } length.toNat
    rw [hcount] at hbytes
    refine ⟨fun hsize => ?_, fun hsize => ?_⟩
    · have hrefused := hbytes.refused (by rw [remaining_add]; omega)
      simp only [readCounted, hread, hcount, hrefused]
    · obtain ⟨_, rfl, htaken⟩ := hbytes.taken (by rw [remaining_add]; omega)
      refine ⟨_, rfl, ?_⟩
      simp only [readCounted, hread, hcount, htaken, rest_add, Nat.add_assoc, List.drop_take,
        Nat.add_sub_cancel_left]
  · have hlength := Nat.lt_of_not_le hlength
    refine ⟨fun _ => ?_, fun hsize => ?_⟩
    · simp only [readCounted, readUInt32_of_lt hlength]
    · omega

/-- What a list of variables stands for: the list of the caller as it was, and a variable for
    each word of the bytes behind the count. -/
def Lists {w : Width} (out : List (Variable w)) (count : Nat) (bytes : Bytes)
    (list : List (Variable w)) : Prop :=
  ∃ vars, list = out ++ vars ∧ vars.length = count ∧ ∀ i, (h : i < vars.length) →
    (vars.get ⟨i, h⟩).toInt =
      Word.signed ((bytes.drop (lengthSize + i * w.size)).take w.size)

theorem lists_splitVariables {w : Width} (out : List (Variable w)) {count : Nat} {bytes : Bytes}
    (h : bytes.length = lengthSize + count * w.size) :
    Lists out count bytes (out ++ splitVariables w count (bytes.drop lengthSize)) := by
  have hlength : (bytes.drop lengthSize).length = count * w.size := by
    rw [List.length_drop]
    omega
  obtain ⟨-, hcount⟩ := flatMap_splitVariables hlength
  refine ⟨_, rfl, hcount, fun i hi => ?_⟩
  rw [hcount] at hi
  have hget := getElem?_splitVariables w count (bytes.drop lengthSize) hi
  -- the word lies inside the bytes
  have hle : i * w.size + w.size ≤ count * w.size := by
    rw [← Nat.succ_mul]
    exact Nat.mul_le_mul_right _ hi
  have hword : (((bytes.drop lengthSize).drop (i * w.size)).take w.size).length = w.size := by
    rw [List.length_take, List.length_drop, hlength]
    omega
  rw [List.get_eq_getElem, (List.getElem_eq_iff _).2 hget, Variable.toInt_ofBytes hword,
    List.drop_drop]

/-- The cursor is taken back, and the list is kept, if the variables are not complete. -/
theorem atomic_readVariables (w : Width) (out : List (Variable w)) :
    x.Atomic (readVariables w out) (lengthSize + x.count * w.size) (.error .incomplete, out)
      fun bytes reply => reply.1 = .ok () ∧ Lists out x.count bytes reply.2 := by
  have hpos : 0 < w.size := by cases w <;> decide
  by_cases hlength : lengthSize ≤ x.remaining
  · obtain ⟨count, hcount, hread⟩ := readUInt32_of_le hlength
    have hbytes :=
      InPlace.atomic_readBytes { x with pos := x.pos + lengthSize } (count.toNat * w.size)
    rw [hcount] at hbytes
    refine ⟨fun hsize => ?_, fun hsize => ?_⟩
    · have hrefused := hbytes.refused (by rw [remaining_add]; omega)
      simp only [readVariables, hread, variablesSize?_eq, hcount, hrefused]
    · have hfits : x.count * w.size ≤ x.remaining - lengthSize := by omega
      obtain ⟨_, rfl, htaken⟩ := hbytes.taken (by rwa [remaining_add])
      have hlength : (x.rest.take (lengthSize + x.count * w.size)).length =
          lengthSize + x.count * w.size := by
        rw [List.length_take, length_rest, Nat.min_eq_left hsize]
      have hlists := lists_splitVariables out hlength
      rw [List.drop_take, Nat.add_sub_cancel_left] at hlists
      refine ⟨(.ok (), _), ⟨rfl, hlists⟩, ?_⟩
      simp only [readVariables, hread, variablesSize?_eq, hcount, htaken, rest_add,
        List.length_take, List.length_drop, length_rest, Nat.min_eq_left hfits,
        Nat.mul_div_cancel _ hpos, Nat.add_assoc]
  · have hlength := Nat.lt_of_not_le hlength
    refine ⟨fun _ => ?_, fun hsize => ?_⟩
    · simp only [readVariables, readUInt32_of_lt hlength]
    · omega

end

/-! ### Reads without a buffer -/

section

variable (x : InPlace)

theorem take?_view (n : Nat) :
    x.view.take? n = (x.readBytes n).1.toOption.map (·, (x.readBytes n).2.view) := by
  by_cases hsize : n ≤ x.remaining
  · obtain ⟨_, rfl, hread⟩ := (x.atomic_readBytes n).taken hsize
    have hsplit : x.rest.splitExact? n = some (x.rest.take n, x.rest.drop n) := by
      refine Bytes.splitExact?_eq_some_iff.2 ⟨(List.take_append_drop n x.rest).symm, ?_⟩
      rw [List.length_take, length_rest, Nat.min_eq_left hsize]
    rw [take?, view, hsplit, hread, view, rest_add]
    rfl
  · have hsize := Nat.lt_of_not_le hsize
    have hsplit : x.rest.splitExact? n = none :=
      Bytes.splitExact?_eq_none_iff.2 (x.length_rest ▸ hsize)
    rw [take?, view, hsplit, (x.atomic_readBytes n).refused hsize]
    rfl

theorem follows_readByte : x.Follows readByte id byte? := by
  by_cases hsize : 1 ≤ x.remaining
  · obtain ⟨_, ⟨b, rfl, hbyte⟩, hread⟩ := x.atomic_readByte.taken hsize
    have hrest : x.view.rest = b :: x.rest.drop 1 := by
      rw [← List.singleton_append, ← hbyte, List.take_append_drop]
      rfl
    unfold Follows byte?
    rw [hread]
    split
    · rename_i hnil
      rw [hnil] at hrest
      cases hrest
    · rename_i hcons
      obtain ⟨rfl, rfl⟩ := List.cons.inj (hcons.symm.trans hrest)
      rw [← rest_add]
      rfl
  · have hsize := Nat.lt_of_not_le hsize
    have hrest : x.view.rest = [] := by
      rw [← List.length_eq_zero_iff, view, length_rest]
      omega
    unfold Follows byte?
    rw [x.atomic_readByte.refused hsize]
    split
    · rfl
    · rename_i hcons
      rw [hrest] at hcons
      cases hcons

theorem length_of_readBytes {x : InPlace} {n : Nat} {bytes : Bytes}
    (h : (x.readBytes n).1 = .ok bytes) : bytes.length = n := by
  by_cases hsize : n ≤ x.remaining
  · obtain ⟨_, rfl, hread⟩ := (x.atomic_readBytes n).taken hsize
    rw [hread] at h
    rw [← Except.ok.inj h, List.length_take, length_rest, Nat.min_eq_left hsize]
  · rw [(x.atomic_readBytes n).refused (Nat.lt_of_not_le hsize)] at h
    cases h

theorem follows_readValue {α β : Type} {f : α → β} {g : Bytes → β} {n : Nat}
    {value : Bytes → α} {read? : Cursor → Option (β × Cursor)}
    (hread : ∀ c, read? c = (c.take? n).map fun p => (g p.1, p.2))
    (hvalue : ∀ bytes : Bytes, bytes.length = n → f (value bytes) = g bytes) :
    x.Follows (readValue n value) f read? := by
  unfold Follows readValue
  rw [hread, take?_view]
  cases h : x.readBytes n with
  | mk result after =>
    cases result with
    | error error => rfl
    | ok bytes =>
      have hlength : bytes.length = n := length_of_readBytes (congrArg Prod.fst h)
      show some (g bytes, after.view) = some (f (value bytes), after.view)
      rw [hvalue bytes hlength]

theorem follows_readUInt16 : x.Follows readUInt16 UInt16.toNat (word? · 2) :=
  x.follows_readValue (fun _ => rfl) fun _ hlength => Word.toNat_uInt16 hlength

theorem follows_readUInt32 : x.Follows readUInt32 UInt32.toNat (word? · lengthSize) :=
  x.follows_readValue (fun _ => rfl) fun _ hlength => Word.toNat_uInt32 hlength

theorem follows_readInt64 : x.Follows readInt64 id int64? :=
  x.follows_readValue (g := fun bytes => Word.toInt64 (Word.ofBytes bytes))
    (fun _ => Option.map_map ..) fun _ _ => rfl

theorem follows_readCounted : x.Follows readCounted id counted? := by
  have hlength := x.follows_readUInt32
  unfold Follows at *
  dsimp only at hlength
  show (x.view.word? lengthSize).bind (fun p => p.2.take? p.1) = _
  rw [hlength, readCounted]
  rcases x.readUInt32 with ⟨_ | length, after⟩
  · rfl
  · show after.view.take? length.toNat = _
    rw [take?_view]
    dsimp only
    rcases after.readBytes length.toNat with ⟨_ | _, _⟩ <;> rfl

theorem follows_readVariables (w : Width) (out : List (Variable w)) :
    x.Follows (fun x =>
        ((x.readVariables w out).1.1.map fun _ => (x.readVariables w out).1.2,
          (x.readVariables w out).2))
      id (variables? · w out) := by
  have hpos : 0 < w.size := by cases w <;> decide
  have hcount := x.follows_readUInt32
  unfold Follows at *
  dsimp only at *
  show (x.view.word? lengthSize).bind (fun p => (p.2.take? (p.1 * w.size)).map
    fun q => (out ++ splitVariables w p.1 q.1, q.2)) = _
  rw [hcount, readVariables]
  rcases x.readUInt32 with ⟨_ | count, after⟩
  · rfl
  · show (after.view.take? (count.toNat * w.size)).map _ = _
    rw [take?_view]
    simp only [variablesSize?_eq]
    cases h : after.readBytes (count.toNat * w.size) with
    | mk result after' =>
      cases result with
      | error error => rfl
      | ok bytes =>
        have hlength : bytes.length = count.toNat * w.size :=
          length_of_readBytes (congrArg Prod.fst h)
        show some (out ++ splitVariables w count.toNat bytes, after'.view) =
          some (out ++ splitVariables w (bytes.length / w.size) bytes, after'.view)
        rw [hlength, Nat.mul_div_cancel _ hpos]

end

/-! ### Any reads -/

/-- A read, with the list that it puts variables into. -/
inductive Read where
  | byte
  | uint16
  | uint32
  | int64
  | bytes (n : Nat)
  | counted
  | inline (w : Width) (out : List (Variable w))
  | offsets (out : List (Variable .fourByte))

namespace Read

/-- The cursor after a read. -/
def run : Read → InPlace → InPlace
  | byte, x => x.readByte.2
  | uint16, x => x.readUInt16.2
  | uint32, x => x.readUInt32.2
  | int64, x => x.readInt64.2
  | bytes n, x => (x.readBytes n).2
  | counted, x => x.readCounted.2
  | inline w out, x => (x.readVariables w out).2
  | offsets out, x => (x.readOffsets out).2

/-- The read is all or nothing, and what it gives is stored in the bytes of its field. -/
def Exact (x : InPlace) : Read → Prop
  | byte => x.Atomic readByte 1 (.error .incomplete)
      fun bytes reply => ∃ b, reply = .ok b ∧ bytes = [b]
  | uint16 => x.Atomic readUInt16 2 (.error .incomplete)
      fun bytes reply => ∃ v, reply = .ok v ∧ v.toNat = Word.ofBytes bytes
  | uint32 => x.Atomic readUInt32 4 (.error .incomplete)
      fun bytes reply => ∃ v, reply = .ok v ∧ v.toNat = Word.ofBytes bytes
  | int64 => x.Atomic readInt64 8 (.error .incomplete)
      fun bytes reply => ∃ v, reply = .ok v ∧ v.toInt = Word.signed bytes
  | bytes n => x.Atomic (readBytes n) n (.error .incomplete)
      fun bytes reply => reply = .ok bytes
  | counted => x.Atomic readCounted (4 + x.count) (.error .incomplete)
      fun bytes reply => reply = .ok (bytes.drop 4)
  | inline w out =>
    x.Atomic (readVariables w out) (4 + x.count * w.size) (.error .incomplete, out)
      fun bytes reply => reply.1 = .ok () ∧ Lists out x.count bytes reply.2
  | offsets out => x.Atomic (readOffsets out) (4 + x.count * 4) (.error .incomplete, out)
      fun bytes reply => reply.1 = .ok () ∧ Lists out x.count bytes reply.2

/-- The read comes to what a read without a buffer comes to. -/
def Agrees (x : InPlace) : Read → Prop
  | byte => x.Follows readByte id byte?
  | uint16 => x.Follows readUInt16 UInt16.toNat (word? · 2)
  | uint32 => x.Follows readUInt32 UInt32.toNat (word? · 4)
  | int64 => x.Follows readInt64 id int64?
  | bytes n => x.Follows (readBytes n) id (take? · n)
  | counted => x.Follows readCounted id counted?
  | inline w out => x.Follows (fun x =>
        ((x.readVariables w out).1.1.map fun _ => (x.readVariables w out).1.2,
          (x.readVariables w out).2))
      id (variables? · w out)
  | offsets out => x.Follows (fun x =>
        ((x.readOffsets out).1.1.map fun _ => (x.readOffsets out).1.2, (x.readOffsets out).2))
      id (variables? · .fourByte out)

end Read

/-- The cursor after several reads. -/
def after (x : InPlace) (reads : List Read) : InPlace := reads.foldl (fun x read => read.run x) x

variable (x : InPlace) (read : Read)

theorem exact_read : read.Exact x := by
  cases read with
  | byte => exact x.atomic_readByte
  | uint16 =>
    exact (x.atomic_readValue 2 _).imp fun _ _ hlength hreply =>
      ⟨_, hreply, Word.toNat_uInt16 hlength⟩
  | uint32 =>
    exact (x.atomic_readValue 4 _).imp fun _ _ hlength hreply =>
      ⟨_, hreply, Word.toNat_uInt32 hlength⟩
  | int64 =>
    exact (x.atomic_readValue 8 _).imp fun _ _ hlength hreply =>
      ⟨_, hreply, Word.toInt_toInt64 hlength⟩
  | bytes n => exact x.atomic_readBytes n
  | counted => exact x.atomic_readCounted
  | inline w out => exact x.atomic_readVariables w out
  | offsets out => exact x.atomic_readVariables .fourByte out

theorem agrees_read : read.Agrees x := by
  cases read with
  | byte => exact x.follows_readByte
  | uint16 => exact x.follows_readUInt16
  | uint32 => exact x.follows_readUInt32
  | int64 => exact x.follows_readInt64
  | bytes n => exact x.take?_view n
  | counted => exact x.follows_readCounted
  | inline w out => exact x.follows_readVariables w out
  | offsets out => exact x.follows_readVariables .fourByte out

variable {x}

/-- **One read** stays inside the buffer. -/
theorem inside_run (h : x.pos ≤ x.buffer.length) :
    (read.run x).buffer = x.buffer ∧ (read.run x).pos ≤ x.buffer.length := by
  have hexact := exact_read x read
  cases read <;> exact Atomic.inside hexact h

/-- **Several reads** stay inside the buffer. -/
theorem inside_after (h : x.pos ≤ x.buffer.length) (reads : List Read) :
    (x.after reads).buffer = x.buffer ∧ (x.after reads).pos ≤ x.buffer.length := by
  induction reads generalizing x with
  | nil => exact ⟨rfl, h⟩
  | cons read reads ih =>
    obtain ⟨hbuffer, hpos⟩ := inside_run read h
    obtain ⟨hbuffer', hpos'⟩ := ih (hbuffer ▸ hpos)
    rw [hbuffer] at hbuffer' hpos'
    exact ⟨hbuffer', hpos'⟩

/-- **Reads are all or nothing.**  After any reads from the front of a buffer, the cursor is
    inside the buffer, and each read passes exactly the bytes of its field and gives what is
    stored in them, or there are fewer bytes than the field needs, and nothing is moved or
    put into the list of the caller.  Such a read fails for lack of bytes alone: the size of
    as many variables as can be counted is a number of 64 bits.  So the reads come to what
    the reads without a buffer come to. -/
theorem reads_atomic (buffer : Bytes) (reads : List Read) :
    ((ofBytes buffer).after reads).buffer = buffer ∧
      ((ofBytes buffer).after reads).pos ≤ buffer.length ∧
      (∀ read : Read, read.Exact ((ofBytes buffer).after reads)) ∧
      (∀ count w, variablesSize? count w = some (count.toNat * w.size)) ∧
      ∀ read : Read, read.Agrees ((ofBytes buffer).after reads) := by
  have hfront : (ofBytes buffer).pos ≤ (ofBytes buffer).buffer.length := Nat.zero_le _
  obtain ⟨hbuffer, hpos⟩ := inside_after hfront reads
  exact ⟨hbuffer, hpos, exact_read _, variablesSize?_eq, agrees_read _⟩

end InPlace

end Cursor

end LogCodec
