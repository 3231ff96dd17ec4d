import LogCodec.Proofs.Message.Length
import LogCodec.Proofs.Message.Positions
import LogCodec.Proofs.Message.Words

/-! # Messages are encoded piece by piece

    A delimiter ends the word before it, and no word behind it depends on what stands
    before it, unless the delimiter is an equals sign.  So a message may be cut at any other
    delimiter, and its parts may be encoded by themselves.

    * `Run.join`: runs behind other runs, where two gaps that meet are one.
    * `Run.ofMessage_append_cons`: the runs of a message that is cut at a delimiter.
    * `Encoded.Joined`: the fields of two messages with a delimiter between them.
    * `Encoded.encoded_at_delimiter`: these are the fields of the whole message. -/

namespace LogCodec

/-! ### Runs behind other runs -/

namespace Run

/-- Runs behind other runs.  Where a gap meets a gap, the two are one. -/
def join : List Run → List Run → List Run
  | [], more => more
  | [gap front], gap back :: more => gap (front ++ back) :: more
  | run :: rest, more => run :: join rest more

section

variable {runs more : List Run} {b : UInt8}

theorem join_nil : join runs [] = runs := by
  induction runs with
  | nil => rfl
  | cons run rest ih =>
    rw [join, ih]
    intro front back more hback
    cases hback

theorem join_word (afterEquals : Bool) (token : Bytes) (rest : List Run) :
    join (word afterEquals token :: rest) more = word afterEquals token :: join rest more := by
  rw [join]
  intro front back more' _ hword
  cases hword

theorem join_cons_cons (first second : Run) (rest : List Run) :
    join (first :: second :: rest) more = first :: join (second :: rest) more := by
  rw [join]
  intro front back more' _ _ hrest
  cases hrest

/-- A byte in front of runs that start with no word. -/
theorem push_eq_join (h : StartsFree more) : push b more = join (push b []) more := by
  cases more with
  | nil => rw [join_nil]
  | cons run rest =>
    cases run with
    | word afterEquals token => exact absurd rfl (h afterEquals token rest)
    | gap back =>
      by_cases hb : isDelimiter b = true
      · simp only [push, if_pos hb]
        rfl
      · simp only [push, if_neg hb]
        rfl

/-- A byte that is put in front changes only the runs in front. -/
theorem push_join (h : StartsFree more) : push b (join runs more) = join (push b runs) more := by
  -- a byte looks at the first run only, so two gaps that meet matter if there is no other run
  cases runs with
  | nil => exact push_eq_join h
  | cons run rest =>
    cases run with
    | word afterEquals token =>
      rw [join_word, push, push]
      by_cases hb : isDelimiter b = true
      · rw [if_pos hb, if_pos hb, join_cons_cons, join_word]
      · rw [if_neg hb, if_neg hb, join_word]
    | gap front =>
      cases rest with
      | cons second rest =>
        rw [join_cons_cons, push, push]
        by_cases hb : isDelimiter b = true
        · rw [if_pos hb, if_pos hb, join_cons_cons]
        · rw [if_neg hb, if_neg hb, join_word, join_cons_cons]
      | nil =>
        cases more with
        | nil => rw [join_nil, join_nil]
        | cons run more =>
          cases run with
          | word afterEquals token => exact absurd rfl (h afterEquals token more)
          | gap back =>
            -- the gap in front and the one behind it are one
            show push b (gap (front ++ back) :: more) = _
            by_cases hb : isDelimiter b = true
            · simp only [push, if_pos hb]
              rfl
            · simp only [push, if_neg hb]
              rfl

end

/-- The runs of a message, if no word stands where it is cut. -/
theorem ofMessage_append {front back : Bytes} (h : StartsFree (ofMessage back)) :
    ofMessage (front ++ back) = join (ofMessage front) (ofMessage back) := by
  -- runs are made from the last byte to the first
  induction front with
  | nil => rfl
  | cons b front ih =>
    show push b (ofMessage (front ++ back)) = join (push b (ofMessage front)) (ofMessage back)
    rw [ih, push_join h]

section

variable {d : UInt8} (hd : isDelimiter d = true)

include hd

theorem startsFree_push (runs : List Run) : StartsFree (push d runs) := by
  intro afterEquals token rest
  cases runs with
  | nil =>
    rw [push, if_pos hd]
    simp
  | cons run runs =>
    cases run <;> rw [push, if_pos hd] <;> simp

/-- A delimiter in front of a message is a gap, and tells its first word something only if
    it is an equals sign. -/
theorem ofMessage_cons (hne : d ≠ equalsSign) (back : Bytes) :
    ofMessage (d :: back) = join [gap [d]] (ofMessage back) := by
  have hcut := cut_ofMessage back
  show push d (ofMessage back) = _
  cases hruns : ofMessage back with
  | nil => rw [push, if_pos hd, join_nil]
  | cons run rest =>
    rw [hruns] at hcut
    cases hcut with
    | gap => rw [push, if_pos hd]; rfl
    | word =>
      -- no equals sign stands before the word, with the delimiter or without it
      rw [push, if_pos hd, beq_eq_false_iff_ne.2 hne]
      rfl

/-- **The runs of a message that is cut at a delimiter.** -/
theorem ofMessage_append_cons (hne : d ≠ equalsSign) (front back : Bytes) :
    ofMessage (front ++ d :: back) =
      join (ofMessage front) (join [gap [d]] (ofMessage back)) := by
  rw [ofMessage_append, ofMessage_cons hd hne]
  exact startsFree_push hd (ofMessage back)

end

end Run

/-! ### Fields of runs -/

variable {w : Width}

namespace Part

theorem logType_join (runs more : List Run) :
    ((Run.join runs more).map (ofRun w)).flatMap logType =
      (runs.map (ofRun w)).flatMap logType ++ (more.map (ofRun w)).flatMap logType := by
  fun_induction Run.join runs more with
  | case1 more => rfl
  | case2 front back more =>
    -- gaps are static text, and each byte of it is escaped by itself
    have hescape : LogType.escape (front ++ back) =
        LogType.escape front ++ LogType.escape back := List.flatMap_append
    show LogType.escape (front ++ back) ++ _ = (LogType.escape front ++ []) ++ (_ ++ _)
    rw [hescape, List.append_nil, List.append_assoc]
    rfl
  | case3 run rest more _ ih => rw [List.map_cons, List.flatMap_cons, ih, List.map_cons,
      List.flatMap_cons, List.append_assoc]

/-- What is stored for variables only stands side by side. -/
theorem filterMap_join {β : Type} {f : Part w → Option β} (hf : ∀ text, f (.text text) = none)
    (runs more : List Run) :
    ((Run.join runs more).map (ofRun w)).filterMap f =
      (runs.map (ofRun w)).filterMap f ++ (more.map (ofRun w)).filterMap f := by
  have hgap (bytes : Bytes) : f (ofRun w (.gap bytes)) = none := hf bytes
  fun_induction Run.join runs more with
  | case1 more => rfl
  | case2 front back more =>
    simp only [List.map_cons, List.map_nil, List.filterMap_cons_none (hgap _), List.filterMap_nil,
      List.nil_append]
  | case3 run rest more _ ih =>
    rw [List.map_cons, List.map_cons, List.filterMap_cons, List.filterMap_cons, ih]
    cases f (ofRun w run) <;> rfl

end Part

namespace Encoded

/-! ### Ends of texts -/

theorem endsFrom_append (start : Nat) (front back : List Bytes) :
    endsFrom start (front ++ back) =
      endsFrom start front ++ endsFrom (start + front.flatten.length) back := by
  induction front generalizing start with
  | nil => rfl
  | cons text front ih =>
    rw [List.cons_append, endsFrom, endsFrom, ih, List.flatten_cons, List.length_append,
      Nat.add_assoc, List.cons_append]

/-- Texts that begin later end later, all by the same distance. -/
theorem endsFrom_add (start distance : Nat) (texts : List Bytes) :
    endsFrom (start + distance) texts = (endsFrom start texts).map (· + distance) := by
  induction texts generalizing start with
  | nil => rfl
  | cons text texts ih =>
    rw [endsFrom, endsFrom, Nat.add_right_comm, ih, List.map_cons]

/-- The ends of the dictionary variables are kept as numbers. -/
theorem map_toInt_ends {texts : List Bytes} (h : ∀ stop ∈ endsFrom 0 texts, stop ≤ endMax) :
    ((endsFrom 0 texts).map (BitVec.ofNat (Width.bits .fourByte))).map BitVec.toInt =
      List.map (fun stop : Nat => (stop : Int)) (endsFrom 0 texts) := by
  rw [List.map_map]
  apply List.map_congr_left
  intro stop hstop
  exact toInt_ofNat_end (h stop hstop)

/-! ### Cutting at a delimiter -/

/-- The fields of two messages, put side by side with a delimiter between them.  A reserved
    byte stands behind a backslash.  The dictionary variables of the second message begin
    where those of the first one end. -/
structure Joined (front : Encoded w) (d : UInt8) (back whole : Encoded w) : Prop where
  logType : whole.logType =
    front.logType ++ (if 0x10 ≤ d ∧ d ≤ 0x1F then [0x5C, d] else [d]) ++ back.logType
  inline : whole.inline = front.inline ++ back.inline
  dictionary : whole.dictionary = front.dictionary ++ back.dictionary
  ends : whole.ends.map BitVec.toInt =
    front.ends.map BitVec.toInt ++
      List.map (fun stop : Offset => stop.toInt + (front.dictionary.length : Int)) back.ends

/-- A delimiter is no backslash, so it is escaped only if it is reserved. -/
theorem escape_delimiter {d : UInt8} (hd : isDelimiter d = true) :
    LogType.escape [d] = if 0x10 ≤ d ∧ d ≤ 0x1F then [0x5C, d] else [d] := by
  have hne : (d == LogType.escapeByte) = false := by
    rw [beq_eq_false_iff_ne]
    intro hescape
    rw [hescape] at hd
    exact absurd hd (by decide)
  show (if LogType.needsEscape d then _ else _) ++ [] = _
  rw [List.append_nil, LogType.needsEscape, hne, Bool.false_or]
  simp only [LogType.isReserved_iff]
  rfl

/-- The ends of the texts behind other texts are those of the texts by themselves, moved by
    the length of the others. -/
theorem toInt_ends_append {front back : List Bytes}
    (h : ∀ stop ∈ endsFrom 0 (front ++ back), stop ≤ endMax) :
    List.map (fun stop : Nat => (stop : Int)) (endsFrom 0 (front ++ back)) =
      ((endsFrom 0 front).map (BitVec.ofNat (Width.bits .fourByte))).map BitVec.toInt ++
        List.map (fun stop : Offset => stop.toInt + (front.flatten.length : Int))
          ((endsFrom 0 back).map (BitVec.ofNat (Width.bits .fourByte))) := by
  have hback : endsFrom (0 + front.flatten.length) back =
      (endsFrom 0 back).map (· + front.flatten.length) := endsFrom_add 0 _ back
  rw [endsFrom_append, hback] at h ⊢
  rw [map_toInt_ends fun stop hstop => h stop (List.mem_append_left _ hstop), List.map_append,
    List.map_map, List.map_map]
  congr 1
  apply List.map_congr_left
  intro stop hstop
  -- moved or not, the end is a number that is kept
  have hmoved := h _ (List.mem_append_right _ (List.mem_map_of_mem hstop))
  show ((stop + front.flatten.length : Nat) : Int) = BitVec.toInt (BitVec.ofNat _ stop) + _
  rw [toInt_ofNat_end (Nat.le_trans (Nat.le_add_right ..) hmoved), Int.natCast_add]

/-- **Messages are encoded piece by piece.**  If a message is cut at a delimiter that is no
    equals sign, its fields are those of the text before the delimiter and of the text behind
    it, with the delimiter between them. -/
theorem encoded_at_delimiter (w : Width) {d : UInt8} (hd : isDelimiter d = true)
    (hne : d ≠ equalsSign) {a b : Bytes} (h : (a ++ [d] ++ b).length ≤ 2 ^ 31 - 1) :
    ∃ front back whole, ofMessage w a = .ok front ∧ ofMessage w b = .ok back ∧
      ofMessage w (a ++ [d] ++ b) = .ok whole ∧ Joined front d back whole := by
  have hlength : (a ++ [d] ++ b).length = a.length + 1 + b.length := by
    rw [List.length_append, List.length_append, List.length_singleton]
  obtain ⟨front, hfront⟩ := exists_ofMessage w (show a.length ≤ 2 ^ 31 - 1 by omega)
  obtain ⟨back, hback⟩ := exists_ofMessage w (show b.length ≤ 2 ^ 31 - 1 by omega)
  obtain ⟨whole, hwhole⟩ := exists_ofMessage w h
  refine ⟨front, back, whole, hfront, hback, hwhole, ?_⟩
  obtain ⟨-, rfl⟩ := ofParts_eq_ok_iff.1 hfront
  obtain ⟨-, rfl⟩ := ofParts_eq_ok_iff.1 hback
  obtain ⟨hends, rfl⟩ := ofParts_eq_ok_iff.1 hwhole
  have hruns : Run.ofMessage (a ++ [d] ++ b) =
      Run.join (Run.ofMessage a) (Run.join [.gap [d]] (Run.ofMessage b)) := by
    rw [List.append_assoc]
    exact Run.ofMessage_append_cons hd hne a b
  rw [hruns] at hends ⊢
  -- the delimiter is static text, so nothing is stored for it
  have hstored {β : Type} {f : Part w → Option β} (hf : ∀ text, f (.text text) = none) :
      ((Run.join (Run.ofMessage a) (Run.join [.gap [d]] (Run.ofMessage b))).map
          (Part.ofRun w)).filterMap f =
        ((Run.ofMessage a).map (Part.ofRun w)).filterMap f ++
          ((Run.ofMessage b).map (Part.ofRun w)).filterMap f := by
    have hgap : f (Part.ofRun w (.gap [d])) = none := hf [d]
    rw [Part.filterMap_join hf, Part.filterMap_join hf, List.map_singleton,
      List.filterMap_cons_none hgap, List.filterMap_nil, List.nil_append]
  have htokens := hstored (f := Part.token?) fun _ => rfl
  constructor
  · show ((Run.join _ _).map (Part.ofRun w)).flatMap Part.logType = _
    rw [Part.logType_join, Part.logType_join, ← escape_delimiter hd, List.append_assoc]
    simp only [List.map_singleton, List.flatMap_singleton]
    rfl
  · exact hstored fun _ => rfl
  · show (((Run.join _ _).map (Part.ofRun w)).filterMap Part.token?).flatten = _
    rw [htokens, List.flatten_append]
    rfl
  · rw [htokens] at hends
    show ((endsFrom 0 (((Run.join _ _).map (Part.ofRun w)).filterMap Part.token?)).map
      (BitVec.ofNat _)).map BitVec.toInt = _
    rw [htokens, map_toInt_ends hends]
    exact toInt_ends_append hends

/-- Two words with a digit, which go into the dictionary, and a reserved byte between them. -/
theorem encoded_at_delimiter_reserved :
    isDelimiter 0x12 = true ∧ (0x12 : UInt8) ≠ equalsSign ∧
      ([0x61, 0x31] ++ [0x12] ++ [0x62, 0x32, 0x63] : Bytes).length ≤ 2 ^ 31 - 1 ∧
      ∃ front back whole, ofMessage .fourByte [0x61, 0x31] = .ok front ∧
        ofMessage .fourByte [0x62, 0x32, 0x63] = .ok back ∧
        ofMessage .fourByte ([0x61, 0x31] ++ [0x12] ++ [0x62, 0x32, 0x63]) = .ok whole ∧
        Joined front 0x12 back whole :=
  ⟨by decide, by decide, by decide,
    encoded_at_delimiter .fourByte (by decide) (by decide) (by decide)⟩

/-- The equals sign is no such delimiter: it makes the word behind it a variable. -/
example : (ofMessage .fourByte [0x3D, 0x67]).map logType = .ok [0x3D, 0x12] ∧
    (ofMessage .fourByte [0x67]).map logType = .ok [0x67] := by
  decide +kernel

end Encoded

end LogCodec
