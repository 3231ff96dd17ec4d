import LogCodec.Proofs.Gzip.Outflow
import LogCodec.Proofs.Stream.Word

/-! # Packing loses nothing

    A file that is packed holds blocks that store their bytes as they are.  An
    inflater takes such a file piece by piece, and writes window by window.  At each
    time what it wrote, and what is stored in the bytes that it has not used, are the
    data together.

    * `Bits.number_bytes`, `Bits.number_of_short`: reading a number of whole bytes.
    * `Ahead`: what is ahead of an inflater in the middle of stored blocks.
    * `Within`: the invariant.  `Within.step` and `Within.runFor`: what an inflater
      does next.
    * `Underway`: the same between two bursts.
    * `Lossless`: compressing that can be undone.
    * `lossless_pack`: packing is such a way to compress. -/

namespace LogCodec.Gzip

/-! ### Numbers -/

namespace Bits

/-- The value of some bits, the least significant first. -/
def value : List Bool → Nat
  | [] => 0
  | low :: rest => low.toNat + 2 * value rest

theorem number_append (bits current : List Bool) (rest : Bytes) :
    number ⟨bits ++ current, rest⟩ bits.length = .ok (value bits, ⟨current, rest⟩) := by
  induction bits with
  | nil => rfl
  | cons low bits ih =>
    rw [List.length_cons, List.cons_append, number, bit]
    simp only [bind, Except.bind, ih]
    rfl

theorem value_ofByte (b : UInt8) : value (ofByte b) = b.toNat := by
  have hall : ∀ n : Fin 256, value ((List.range 8).map n.1.testBit) = n := by decide +kernel
  exact hall ⟨b.toNat, b.toNat_lt⟩

theorem number_byte (b : UInt8) (rest : Bytes) :
    number ⟨[], b :: rest⟩ 8 = .ok (b.toNat, ⟨[], rest⟩) := by
  have hread := number_append (ofByte b) [] rest
  rw [List.append_nil, value_ofByte] at hread
  exact hread

/-- A number is read in two parts, the low one first. -/
theorem number_add (b : Bits) (m n : Nat) :
    b.number (m + n) = (do
      let (low, b) ← b.number m
      let (high, b) ← b.number n
      return (low + 2 ^ m * high, b)) := by
  induction m generalizing b with
  | zero =>
    rw [Nat.zero_add]
    cases h : b.number n <;> simp [number, bind, Except.bind, pure, Except.pure, h]
  | succ m ih =>
    rw [Nat.add_right_comm, number, number]
    cases b.bit with
    | error => rfl
    | ok found =>
      simp only [bind, Except.bind, ih]
      cases found.2.number m with
      | error => rfl
      | ok low =>
        simp only [pure, Except.pure]
        cases low.2.number n with
        | error => rfl
        | ok high =>
          simp only [Except.ok.injEq, Prod.mk.injEq, and_true, Nat.pow_succ]
          rw [Nat.mul_add, Nat.mul_comm _ 2, Nat.mul_assoc]
          omega

/-- A number of whole bytes, the least significant first. -/
theorem number_bytes (bytes rest : Bytes) :
    number ⟨[], bytes ++ rest⟩ (8 * bytes.length) =
      .ok (Word.ofBytes bytes.reverse, ⟨[], rest⟩) := by
  induction bytes with
  | nil => rfl
  | cons b bytes ih =>
    have hvalue : Word.ofBytes (b :: bytes).reverse =
        b.toNat + 2 ^ 8 * Word.ofBytes bytes.reverse := by
      rw [List.reverse_cons, Word.ofBytes, List.foldl_append]
      show Word.ofBytes bytes.reverse * 256 + b.toNat = _
      omega
    rw [List.length_cons, Nat.mul_add, Nat.mul_one, Nat.add_comm (8 * _), number_add,
      List.cons_append, number_byte, hvalue]
    simp only [bind, Except.bind, ih]
    rfl

/-- A bit is read as long as there is one. -/
theorem bit_of_size_pos {b : Bits} (h : 0 < b.size) :
    ∃ low rest, b.bit = .ok (low, rest) ∧ rest.size + 1 = b.size := by
  obtain ⟨current, bytes⟩ := b
  cases current with
  | cons low current =>
    refine ⟨low, ⟨current, bytes⟩, rfl, ?_⟩
    simp only [size, List.length_cons]
    omega
  | nil =>
    cases bytes with
    | nil => exact absurd h (by decide)
    | cons byte bytes =>
      refine ⟨_, ⟨_, bytes⟩, rfl, ?_⟩
      simp only [size, List.length_cons, List.length_map, List.length_nil]
      show 7 + 8 * bytes.length + 1 = 0 + 8 * (bytes.length + 1)
      omega

/-- More bits than there are cannot be read. -/
theorem number_of_short {b : Bits} {n : Nat} (h : b.size < n) : b.number n = .error .short := by
  induction n generalizing b with
  | zero => exact absurd h (Nat.not_lt_zero _)
  | succ n ih =>
    rw [number]
    rcases Nat.eq_zero_or_pos b.size with hzero | hpos
    · -- there is no bit at all
      have hbit : b.bit = .error .short := by
        obtain ⟨current, bytes⟩ := b
        simp only [size] at hzero
        obtain rfl : current = [] := List.length_eq_zero_iff.1 (by omega)
        obtain rfl : bytes = [] := List.length_eq_zero_iff.1 (by omega)
        rfl
      rw [hbit]
      rfl
    · obtain ⟨low, rest, hbit, hsize⟩ := bit_of_size_pos hpos
      rw [hbit]
      simp only [bind, Except.bind]
      rw [ih (by omega)]

end Bits

theorem length_littleEndian (n value : Nat) : (littleEndian n value).length = n := by
  rw [littleEndian, List.length_reverse, Word.length_toBytes]

theorem number_littleEndian {value : Nat} (h : value < 65536) (rest : Bytes) :
    Bits.number ⟨[], littleEndian 2 value ++ rest⟩ 16 = .ok (value, ⟨[], rest⟩) := by
  have hread := Bits.number_bytes (littleEndian 2 value) rest
  rwa [length_littleEndian, littleEndian, List.reverse_reverse, Word.ofBytes_toBytes_of_lt h]
    at hread

/-! ### Blocks -/

/-- How a stored block of so many bytes starts. -/
def blockHeader (last : Bool) (size : Nat) : Bytes :=
  (if last then 1 else 0) :: (littleEndian 2 size ++ littleEndian 2 (blockMax - size))

/-- What is ahead of an inflater in the middle of stored blocks: the data that is still
    stored, and the bytes that store it, with those behind the blocks. -/
inductive Ahead (tail : Bytes) : Phase → (last : Bool) → (data ahead : Bytes) → Prop where
  /-- The last block has ended. -/
  | ended : Ahead tail .between true [] tail
  /-- A block starts. -/
  | block {last : Bool} {size : Nat} {data ahead : Bytes} :
    size ≤ blockMax → Ahead tail (.stored size) last data ahead →
    Ahead tail .between false data (blockHeader last size ++ ahead)
  /-- The rest of a block. -/
  | piece {last : Bool} {piece data ahead : Bytes} :
    Ahead tail .between last data ahead →
    Ahead tail (.stored piece.length) last (piece ++ data) (piece ++ ahead)

theorem length_blockHeader (last : Bool) (size : Nat) : (blockHeader last size).length = 5 := by
  rw [blockHeader, List.length_cons, List.length_append, length_littleEndian, length_littleEndian]

theorem lastBlock_eq (data : Bytes) :
    storedBlocks.lastBlock data = blockHeader true data.length ++ data := by
  simp only [storedBlocks.lastBlock, blockHeader, List.cons_append, List.append_assoc, if_true]

/-- The blocks that store some data. -/
theorem ahead_storedBlocks (tail : Bytes) {fuel : Nat} {data : Bytes}
    (h : data.length ≤ blockMax * (fuel + 1)) :
    Ahead tail .between false data (storedBlocks fuel data ++ tail) := by
  have hlastBlock {data : Bytes} (h : data.length ≤ blockMax) :
      Ahead tail .between false data (storedBlocks.lastBlock data ++ tail) := by
    have hpiece : Ahead tail (.stored data.length) true (data ++ []) (data ++ tail) :=
      .piece .ended
    rw [List.append_nil] at hpiece
    rw [lastBlock_eq, List.append_assoc]
    exact .block h hpiece
  induction fuel generalizing data with
  | zero => exact hlastBlock (by omega)
  | succ fuel ih =>
    unfold storedBlocks
    split
    case isTrue hlarge =>
      have hlength : (data.take blockMax).length = blockMax := by
        rw [List.length_take]
        omega
      have hfuel : (data.drop blockMax).length ≤ blockMax * (fuel + 1) := by
        rw [Nat.mul_succ] at h
        rw [List.length_drop]
        omega
      have hpiece : Ahead tail (.stored (data.take blockMax).length) false
          (data.take blockMax ++ data.drop blockMax)
          (data.take blockMax ++ (storedBlocks fuel (data.drop blockMax) ++ tail)) :=
        .piece (ih hfuel)
      rw [hlength, List.take_append_drop] at hpiece
      have hblock := Ahead.block (Nat.le_refl _) hpiece
      simpa [blockHeader, List.append_assoc] using hblock
    case isFalse hsmall => exact hlastBlock (by omega)

theorem Ahead.length_le {tail : Bytes} {phase : Phase} {last : Bool} {data ahead : Bytes}
    (h : Ahead tail phase last data ahead) : data.length + tail.length ≤ ahead.length := by
  induction h with
  | ended => exact Nat.le_of_eq (Nat.zero_add _)
  | block _ _ ih =>
    rw [List.length_append]
    omega
  | piece _ ih =>
    rw [List.length_append, List.length_append]
    omega

namespace Inflater

theorem readBlock_flag (last : Bool) (rest : Bytes) :
    readBlock ⟨[], (if last then 1 else 0) :: rest⟩ = (do
      let (size, b) ← Bits.number ⟨[], rest⟩ 16
      let (complement, b) ← b.number 16
      if size + complement ≠ 65535 then throw .corrupt
      return (last, .stored size, b)) := by
  cases last <;> rfl

/-- The start of a block is read when all of it is there. -/
theorem readBlock_blockHeader (last : Bool) {size : Nat} (h : size ≤ blockMax) (rest : Bytes) :
    readBlock ⟨[], blockHeader last size ++ rest⟩ = .ok (last, .stored size, ⟨[], rest⟩) := by
  have hmax : blockMax = 65535 := rfl
  rw [blockHeader, List.cons_append, List.append_assoc, readBlock_flag,
    number_littleEndian (by omega)]
  simp only [bind, Except.bind]
  rw [number_littleEndian (by omega)]
  have hsum : size + (blockMax - size) = 65535 := by omega
  simp [hsum, pure, Except.pure]

/-- The front of the start of a block is not enough. -/
theorem readBlock_of_short {last : Bool} {size : Nat} {front back : Bytes}
    (h : blockHeader last size = front ++ back) (hback : back ≠ []) :
    readBlock ⟨[], front⟩ = .error .short := by
  have hlength := congrArg List.length h
  rw [length_blockHeader, List.length_append] at hlength
  have hpos := List.length_pos_iff.2 hback
  cases front with
  | nil => rfl
  | cons flag front =>
    rw [blockHeader, List.cons_append, List.cons.injEq] at h
    obtain ⟨rfl, -⟩ := h
    rw [List.length_cons] at hlength
    rw [readBlock_flag]
    by_cases hshort : front.length < 2
    · rw [Bits.number_of_short (by simp only [Bits.size, List.length_nil]; omega)]
      rfl
    · -- the size is there, but not all of its complement
      have htake : (front.take 2).length = 2 := by
        rw [List.length_take]
        omega
      have hread := Bits.number_bytes (front.take 2) (front.drop 2)
      rw [htake, List.take_append_drop] at hread
      rw [hread]
      simp only [bind, Except.bind]
      rw [Bits.number_of_short]
      simp only [Bits.size, List.length_nil, List.length_drop]
      omega

end Inflater

/-! ### One inflater -/

section

variable {tail total rest : Bytes} {limit : Nat}

/-- The inflater is in the middle of stored blocks.  `rest` are the bytes that it has
    not taken, `tail` those behind the blocks, and `total` are the data of all
    blocks. -/
structure Within (tail total rest : Bytes) (s : Inflater) : Prop where
  /-- Stored bytes start at a whole byte. -/
  aligned : s.bits.current = []
  ahead : ∃ data, s.out.toList ++ data = total ∧
    Ahead tail s.phase s.last data (s.bits.rest ++ rest)

/-- What is known when such an inflater halts.  Its input is short only when there is
    more. -/
def Halted (tail total rest : Bytes) (limit : Nat) (s : Inflater) : Halt → Prop
  | .ended => s.out.toList = total ∧ s.bits.rest ++ rest = tail
  | .full => limit ≤ s.out.size
  | .stopped .short => rest ≠ []
  | .stopped .corrupt => False

/-- What is left to do for an inflater that takes no more input. -/
def Inflater.work (s : Inflater) : Nat :=
  2 * s.bits.rest.length +
    match s.phase with
    | .stored _ => 1
    | _ => 0

/-- What comes of one step. -/
def Stepped (tail total rest : Bytes) (limit work : Nat) : Inflater × Option Halt → Prop
  | (s, none) => Within tail total rest s ∧ s.work < work
  | (s, some halt) => Within tail total rest s ∧ Halted tail total rest limit s halt

variable {bits : Bytes} {out : Array UInt8} {last : Bool} {data ahead : Bytes}

/-- A step at the start of a block. -/
theorem stepped_block {size : Nat} (hsize : size ≤ blockMax)
    (hdata : out.toList ++ data = total) (hahead : Ahead tail (.stored size) last data ahead)
    (hbits : bits ++ rest = blockHeader last size ++ ahead) :
    Stepped tail total rest limit (2 * bits.length)
      (Inflater.step limit ⟨⟨[], bits⟩, .between, false, out⟩) := by
  have hcut : (∃ front, bits = blockHeader last size ++ front ∧ front ++ rest = ahead) ∨
      ∃ back, back ≠ [] ∧ blockHeader last size = bits ++ back ∧ rest = back ++ ahead := by
    rcases List.append_eq_append_iff.1 hbits with ⟨back, hheader, hrest⟩ | ⟨front, hfront, heq⟩
    · by_cases hback : back = []
      · rw [hback, List.append_nil] at hheader
        rw [hback, List.nil_append] at hrest
        exact .inl ⟨[], by rw [hheader, List.append_nil], hrest⟩
      · exact .inr ⟨back, hback, hheader, hrest⟩
    · exact .inl ⟨front, hfront, heq.symm⟩
  rcases hcut with ⟨front, hfront, hrest⟩ | ⟨back, hback, hheader, hrest⟩
  · have hread := Inflater.readBlock_blockHeader last hsize front
    have hlength := congrArg List.length hfront
    rw [List.length_append, length_blockHeader] at hlength
    rw [← hfront] at hread
    rw [← hrest] at hahead
    simp only [Inflater.step, hread, Bool.false_eq_true, if_false]
    refine ⟨⟨rfl, data, hdata, hahead⟩, ?_⟩
    simp only [Inflater.work]
    omega
  · -- the input ends inside the start of the block
    have hread := Inflater.readBlock_of_short hheader hback
    simp only [Inflater.step, hread, Bool.false_eq_true, if_false]
    refine ⟨⟨rfl, data, hdata, ?_⟩, ?_⟩
    · show Ahead tail .between false data (bits ++ rest)
      rw [hbits]
      exact .block hsize hahead
    · intro hnone
      rw [hnone] at hrest
      exact hback (List.append_eq_nil_iff.1 hrest.symm).1

/-- An inflater inside a block, of which this piece is left. -/
theorem within_piece {piece : Bytes} (hdata : out.toList ++ (piece ++ data) = total)
    (hahead : Ahead tail .between last data ahead) (hbits : bits ++ rest = piece ++ ahead) :
    Within tail total rest ⟨⟨[], bits⟩, .stored piece.length, last, out⟩ := by
  refine ⟨rfl, piece ++ data, hdata, ?_⟩
  show Ahead tail (.stored piece.length) last (piece ++ data) (bits ++ rest)
  rw [hbits]
  exact .piece hahead

/-- It takes the bytes at the front of the piece. -/
theorem stepped_taken {taken left : Bytes} (hdata : out.toList ++ (taken ++ left ++ data) = total)
    (hahead : Ahead tail .between last data ahead) (hbits : bits ++ rest = left ++ ahead)
    (htaken : taken ≠ []) :
    Stepped tail total rest limit (2 * (taken ++ bits).length + 1)
      (⟨⟨[], bits⟩, .stored left.length, last, taken.foldl Array.push out⟩, none) := by
  have hpos : 0 < taken.length := List.length_pos_iff.2 htaken
  constructor
  · apply within_piece _ hahead hbits
    rw [← hdata, List.foldl_push_eq_append', Array.toList_append, List.append_assoc,
      List.append_assoc]
  · simp only [Inflater.work, List.length_append]
    omega

/-- A step inside a block. -/
theorem stepped_piece {piece : Bytes} (hdata : out.toList ++ (piece ++ data) = total)
    (hahead : Ahead tail .between last data ahead) (hbits : bits ++ rest = piece ++ ahead) :
    Stepped tail total rest limit (2 * bits.length + 1)
      (Inflater.step limit ⟨⟨[], bits⟩, .stored piece.length, last, out⟩) := by
  have hhere := within_piece hdata hahead hbits
  by_cases hnil : piece.length = 0
  · -- the block has ended
    simp only [Inflater.step, hnil, if_true]
    rw [List.length_eq_zero_iff.1 hnil] at hdata hbits
    refine ⟨⟨rfl, data, hdata, ?_⟩, ?_⟩
    · show Ahead tail .between last data (bits ++ rest)
      rw [hbits]
      exact hahead
    · simp only [Inflater.work]
      omega
  by_cases hfull : limit - out.size = 0
  · simp only [Inflater.step, hnil, hfull, if_false, if_true]
    refine ⟨hhere, ?_⟩
    show limit ≤ out.size
    omega
  simp only [Inflater.step, hnil, hfull, if_false]
  -- the bytes that are taken are those at the front of the block
  generalize hsize : min piece.length (limit - out.size) = size
  have hlength := congrArg List.length hbits
  rw [List.length_append, List.length_append] at hlength
  split
  case h_1 htake =>
    refine ⟨hhere, ?_⟩
    rcases List.take_eq_nil_iff.1 htake with hzero | hempty
    · omega
    · intro hrest
      rw [hempty, hrest] at hlength
      simp only [List.length_nil] at hlength
      omega
  case h_2 htaken =>
    obtain ⟨bits', hbits'⟩ := List.take_prefix size bits
    have hcount : (bits.take size).length ≤ piece.length := by
      rw [List.length_take]
      omega
    generalize bits.take size = taken at hbits' htaken hcount ⊢
    subst hbits'
    rw [List.append_assoc] at hbits
    obtain ⟨left, rfl⟩ : taken <+: piece := by
      apply List.prefix_of_prefix_length_le _ (List.prefix_append piece ahead) hcount
      rw [← hbits]
      exact List.prefix_append ..
    rw [List.append_assoc, List.append_cancel_left_eq] at hbits
    have hleft : (taken ++ left).length - taken.length = left.length := by
      rw [List.length_append, Nat.add_sub_cancel_left]
    rw [List.drop_left, hleft]
    exact stepped_taken hdata hahead hbits htaken

theorem Within.step {s : Inflater} (h : Within tail total rest s) (limit : Nat) :
    Stepped tail total rest limit s.work (s.step limit) := by
  obtain ⟨⟨current, bits⟩, phase, last, out⟩ := s
  obtain ⟨rfl, data, hdata, hahead⟩ := h
  generalize hbits : bits ++ rest = ahead at hahead
  dsimp only at hdata hahead
  cases hahead with
  | ended =>
    rw [List.append_nil] at hdata
    refine ⟨⟨rfl, [], by rw [List.append_nil]; exact hdata, ?_⟩, hdata, hbits⟩
    show Ahead tail .between true [] (bits ++ rest)
    rw [hbits]
    exact .ended
  | block hsize hahead => exact stepped_block hsize hdata hahead hbits
  | piece hahead => exact stepped_piece hdata hahead hbits

/-- An inflater runs until it halts for a good reason. -/
theorem Within.runFor {s : Inflater} (h : Within tail total rest s) {limit fuel : Nat}
    (hfuel : s.work < fuel) :
    Within tail total rest (s.runFor limit fuel).1 ∧
      Halted tail total rest limit (s.runFor limit fuel).1 (s.runFor limit fuel).2 := by
  fun_induction Inflater.runFor limit fuel s with
  | case1 => exact absurd hfuel (Nat.not_lt_zero _)
  | case2 fuel s s' hstep ih =>
    have hstepped := h.step limit
    rw [hstep] at hstepped
    exact ih hstepped.1 (by have := hstepped.2; omega)
  | case3 fuel s s' halt hstep =>
    have hstepped := h.step limit
    rw [hstep] at hstepped
    exact hstepped

theorem Within.run {s : Inflater} (h : Within tail total rest s) (limit : Nat) :
    Within tail total rest (s.run limit).1 ∧
      Halted tail total rest limit (s.run limit).1 (s.run limit).2 := by
  apply h.runFor
  have hwork : s.work ≤ 2 * s.bits.rest.length + 1 := by
    unfold Inflater.work
    split <;> omega
  have hsize : s.bits.rest.length ≤ s.bits.size := by
    unfold Bits.size
    omega
  omega

theorem Within.length_le {s : Inflater} (h : Within tail total rest s) :
    s.out.size ≤ total.length ∧ tail.length ≤ (s.bits.rest ++ rest).length := by
  obtain ⟨data, hdata, hahead⟩ := h.ahead
  have hlength := congrArg List.length hdata
  rw [List.length_append, Array.length_toList] at hlength
  have hle := hahead.length_le
  exact ⟨by omega, by omega⟩

end

/-! ### From burst to burst -/

/-- Inflating stored blocks, between two bursts.  The input is never used up, since
    there are bytes behind the blocks. -/
structure Underway (tail total : Bytes) (f : Inflation) : Prop where
  within : Within tail total f.rest f.inflater
  more : f.drained = true → f.rest ≠ []

/-- A bound of the number of bursts to come: of windows to be filled, and of pieces to
    be taken. -/
def Inflation.work (total : Bytes) (f : Inflation) : Nat :=
  total.length / windowSize - f.inflater.out.size / windowSize +
    (f.rest.length + pieceSize - 1) / pieceSize + if f.drained then 0 else 1

section

variable {tail total : Bytes} {f : Inflation}

theorem refill_of_not_drained (h : f.drained = false) : f.refill = (f, false) := by
  rw [Inflation.refill, h]
  rfl

/-- The next piece is taken when the last one was used up. -/
theorem refill_of_drained (h : f.drained = true) (hrest : f.rest ≠ []) :
    f.refill = ({ f with
      inflater := { f.inflater with
        bits := { f.inflater.bits with
          rest := f.inflater.bits.rest ++ f.rest.take pieceSize } }
      rest := f.rest.drop pieceSize
      taken := f.taken + (f.rest.take pieceSize).length }, false) := by
  rw [Inflation.refill, h, if_neg (by decide), if_neg hrest]

theorem Underway.refill (h : Underway tail total f) :
    f.refill.2 = false ∧ Within tail total f.refill.1.rest f.refill.1.inflater ∧
      f.refill.1.inflater.out = f.inflater.out ∧
      (f.refill.1.rest.length + pieceSize - 1) / pieceSize + (if f.drained then 1 else 0) ≤
        (f.rest.length + pieceSize - 1) / pieceSize := by
  cases hdrained : f.drained with
  | false =>
    rw [refill_of_not_drained hdrained, if_neg (by decide), Nat.add_zero]
    exact ⟨rfl, h.within, rfl, Nat.le_refl _⟩
  | true =>
    have hmore := h.more hdrained
    have hpos := List.length_pos_iff.2 hmore
    have hpiece : pieceSize = 32768 := rfl
    rw [refill_of_drained hdrained hmore, if_pos rfl]
    refine ⟨rfl, ⟨h.within.aligned, ?_⟩, rfl, ?_⟩
    · obtain ⟨data, hdata, hahead⟩ := h.within.ahead
      refine ⟨data, hdata, ?_⟩
      rw [List.append_assoc, List.take_append_drop]
      exact hahead
    · rw [List.length_drop, hpiece]
      omega

/-- What comes of one burst.  Unless all blocks have ended, a window was filled or the
    input was used up. -/
theorem advance_of_within (h : Within tail total f.rest f.inflater) (htail : tail ≠ []) :
    (f.advance false).1.rest = f.rest ∧
      match (f.advance false).2 with
      | (burst, .ended) =>
        burst.ending = .last ∧ (f.advance false).1.inflater.out.toList = total ∧
          (f.advance false).1.inflater.bits.rest ++ f.rest = tail
      | (burst, _) =>
        (burst.ending = .more ∨ burst.ending = .pause) ∧ Underway tail total (f.advance false).1 ∧
          total.length / windowSize - (f.advance false).1.inflater.out.size / windowSize +
            (if (f.advance false).1.drained then 0 else 1) ≤
              total.length / windowSize - f.inflater.out.size / windowSize := by
  have hwindow : windowSize = 32768 := rfl
  have hgrown := Inflater.size_le_run ((f.inflater.out.size / windowSize + 1) * windowSize) f.inflater
  obtain ⟨hwithin, hhalted⟩ := h.run ((f.inflater.out.size / windowSize + 1) * windowSize)
  cases hran : f.inflater.run ((f.inflater.out.size / windowSize + 1) * windowSize) with
  | mk s halt =>
  rw [hran] at hgrown hwithin hhalted
  obtain ⟨hsize, hmore⟩ := hwithin.length_le
  simp only [Inflation.advance, hran]
  refine ⟨trivial, ?_⟩
  cases halt with
  | ended => exact ⟨rfl, hhalted⟩
  | full =>
    have hlimit : (f.inflater.out.size / windowSize + 1) * windowSize ≤ s.out.size := hhalted
    refine ⟨?_, ⟨hwithin, ?_⟩, ?_⟩
    · cases s.bits.rest.isEmpty with
      | false => exact .inl rfl
      | true => exact .inr rfl
    · -- what is ahead has not been taken
      intro hdrained hrest
      have hempty : s.bits.rest = [] := List.isEmpty_iff.1 hdrained
      dsimp only at hrest
      rw [hempty, hrest] at hmore
      exact htail (List.length_eq_zero_iff.1 (Nat.le_zero.1 hmore))
    · rw [hwindow] at hlimit ⊢
      dsimp only at hsize ⊢
      split <;> omega
  | stopped stop =>
    cases stop with
    | corrupt => exact hhalted.elim
    | short =>
      refine ⟨.inr rfl, ⟨hwithin, fun _ => hhalted⟩, ?_⟩
      rw [hwindow]
      dsimp only at hgrown ⊢
      rw [if_pos rfl]
      omega

/-- Stored blocks are inflated to their end. -/
theorem Underway.inflateFrom (h : Underway tail total f) (htail : tail ≠ []) {fuel : Nat}
    (hfuel : f.work total < fuel) (bursts : List Burst) :
    (inflateFrom fuel bursts f).data = total ∧
      (inflateFrom fuel bursts f).result = .ok tail := by
  induction fuel generalizing f bursts with
  | zero => exact absurd hfuel (Nat.not_lt_zero _)
  | succ fuel ih =>
    obtain ⟨hdry, hwithin, hout, hpieces⟩ := h.refill
    obtain ⟨hrest, hadvance⟩ := advance_of_within hwithin htail
    rw [hout] at hadvance
    unfold LogCodec.Gzip.inflateFrom
    dsimp only
    rw [hdry]
    -- less is left to do after the burst
    have hgoesOn (hunderway : Underway tail total (f.refill.1.advance false).1)
        (hwork : total.length / windowSize -
            (f.refill.1.advance false).1.inflater.out.size / windowSize +
            (if (f.refill.1.advance false).1.drained then 0 else 1) ≤
          total.length / windowSize - f.inflater.out.size / windowSize) (bursts : List Burst) :
        (LogCodec.Gzip.inflateFrom fuel bursts (f.refill.1.advance false).1).data = total ∧
          (LogCodec.Gzip.inflateFrom fuel bursts (f.refill.1.advance false).1).result =
            .ok tail := by
      apply ih hunderway
      unfold Inflation.work at hfuel ⊢
      rw [hrest]
      cases hdrained : f.drained <;> simp only [hdrained, if_true, Bool.false_eq_true, if_false]
        at hfuel hpieces <;> omega
    generalize f.refill.1.advance false = advanced at hrest hadvance hgoesOn ⊢
    obtain ⟨f', burst, halt⟩ := advanced
    dsimp only at hrest hadvance hgoesOn ⊢
    cases halt with
    | ended =>
      obtain ⟨hlast, htotal, hbehind⟩ := hadvance
      rw [hlast, hrest]
      exact ⟨htotal, congrArg Except.ok hbehind⟩
    | full | stopped =>
      obtain ⟨hending, hunderway, hwork⟩ := hadvance
      rcases hending with hending | hending
      · rw [hending]
        exact hgoesOn hunderway hwork _
      · rw [hending]
        exact hgoesOn hunderway hwork _

end

/-! ### Packed files -/

/-- The low bytes of a number are read back. -/
theorem littleEndian?_append (n value : Nat) (rest : Bytes) :
    littleEndian? n (littleEndian n value ++ rest) = some (value % 256 ^ n, rest) := by
  have hsplit : (littleEndian n value ++ rest).splitExact? n = some (littleEndian n value, rest) :=
    Bytes.splitExact?_eq_some_iff.2 ⟨rfl, length_littleEndian n value⟩
  rw [littleEndian?, hsplit, Option.map_some]
  simp only [littleEndian, List.reverse_reverse, Word.ofBytes_toBytes]

/-- What stands behind the blocks of a packed file. -/
def trailer (data : Bytes) : Bytes :=
  littleEndian 4 (crc32 data).toNat ++ littleEndian 4 data.length

theorem checkTrailer_trailer (data : Bytes) : checkTrailer data (trailer data) = none := by
  have hsum := littleEndian?_append 4 (crc32 data).toNat (littleEndian 4 data.length)
  have hsize := littleEndian?_append 4 data.length []
  have hlt : (crc32 data).toNat < 256 ^ 4 := (crc32 data).toNat_lt
  rw [Nat.mod_eq_of_lt hlt] at hsum
  rw [List.append_nil] at hsize
  simp [checkTrailer, trailer, hsum, hsize]

theorem skipHeader_pack (data : Bytes) :
    skipHeader (pack data) = .ok (storedBlocks data.length data ++ trailer data) := by
  have hsplit : (pack data).splitExact? 10 = some ([0x1F, 0x8B, 8, 0, 0, 0, 0, 0, 0, 0xFF],
      storedBlocks data.length data ++ trailer data) := by
    refine Bytes.splitExact?_eq_some_iff.2 ⟨?_, rfl⟩
    simp only [pack, trailer, List.append_assoc]
  simp [skipHeader, hsplit, need, bind, Except.bind, pure, Except.pure]

/-- Blocks are inflated wherever in a file they start. -/
theorem inflate_storedBlocks (start : Nat) (data : Bytes) {tail : Bytes} (htail : tail ≠ []) :
    (inflate start (storedBlocks data.length data ++ tail)).data = data ∧
      (inflate start (storedBlocks data.length data ++ tail)).result = .ok tail := by
  have hahead : Ahead tail .between false data (storedBlocks data.length data ++ tail) := by
    apply ahead_storedBlocks
    rw [blockMax]
    omega
  generalize storedBlocks data.length data ++ tail = bytes at hahead ⊢
  have hlength := hahead.length_le
  have hpos := List.length_pos_iff.2 htail
  obtain ⟨size, f, heq, hinflater, hrest, hdrained⟩ := inflate_eq start bytes
  rw [heq]
  apply Underway.inflateFrom _ htail
  · have hwindow : windowSize = 32768 := rfl
    have hpiece : pieceSize = 32768 := rfl
    rw [Inflation.work, hrest, List.length_drop, hwindow, hpiece]
    split <;> omega
  · refine ⟨?_, ?_⟩
    · rw [hinflater, hrest]
      refine ⟨rfl, data, rfl, ?_⟩
      show Ahead tail .between false data (bytes.take size ++ bytes.drop size)
      rw [List.take_append_drop]
      exact hahead
    · -- there is a first piece
      rw [hdrained, hrest]
      intro hempty hnone
      have hall := List.take_append_drop size bytes
      rw [List.isEmpty_iff.1 hempty, hnone] at hall
      rw [← hall] at hlength
      simp only [List.length_nil, List.append_nil] at hlength
      omega

/-- The file that is made of some data gives this data, and then ends well. -/
def Lossless (compress : Bytes → Bytes) : Prop :=
  ∀ data, (firstMember (compress data)).data = data ∧ (firstMember (compress data)).failure = none

/-- **Packing loses nothing.** -/
theorem lossless_pack : Lossless pack := by
  intro data
  have htail : trailer data ≠ [] := by
    intro hnil
    have hlength := congrArg List.length hnil
    rw [trailer, List.length_append, length_littleEndian, length_littleEndian] at hlength
    cases hlength
  obtain ⟨hdata, hresult⟩ := inflate_storedBlocks ((pack data).length -
    (storedBlocks data.length data ++ trailer data).length) data htail
  generalize hinflate : inflate _ _ = inflated at hdata hresult
  rw [firstMember_of_inflate (skipHeader_pack data) hinflate hresult, hdata]
  exact ⟨rfl, checkTrailer_trailer data⟩

end LogCodec.Gzip
