import LogCodec.Proofs.Text.Decimal
import LogCodec.TextLog
import Mathlib.Data.List.Basic
import Mathlib.Data.List.TakeWhile

/-! # What a text log tells

    The rows of a text, the event that each of them tells, and the text that these
    events are written as, each as a relation that says nothing of how it is
    computed.

    - `Rows`: the rows of a text.
    - `Tells`, `Told`: the event of a row, and those of all rows.
    - `Prints`: the text that the events of a text are written as, with timestamps as
      numbers.
    - `prints_iff`: it is the text of the events that are read.
    - `events_lines_printed`: the events are read back from it. -/

namespace LogCodec.TextLog

/-! ### Rows -/

/-- The rows of a text: what stands before each newline, and what stands behind the
    last one, unless that is nothing. -/
inductive Rows : (text : Bytes) → List Bytes → Prop where
  | nil : Rows [] []
  | ended {row rest : Bytes} {rows : List Bytes} :
    newline ∉ row → Rows rest rows → Rows (row ++ newline :: rest) (row :: rows)
  | unended {row : Bytes} : newline ∉ row → row ≠ [] → Rows row [row]

section

variable {b : UInt8} {front : Bytes}

theorem all_ne_of_not_mem (h : b ∉ front) : ∀ c ∈ front, decide (c ≠ b) = true := by
  intro c hc
  exact decide_eq_true (ne_of_mem_of_not_mem hc h)

/-- What stands before the first of some byte. -/
theorem takeWhile_of_not_mem (h : b ∉ front) (rest : Bytes) :
    (front ++ b :: rest).takeWhile (· ≠ b) = front := by
  rw [List.takeWhile_append_of_pos (all_ne_of_not_mem h), List.takeWhile_cons_of_neg (by simp),
    List.append_nil]

/-- What stands behind it, and the byte itself. -/
theorem dropWhile_of_not_mem (h : b ∉ front) (rest : Bytes) :
    (front ++ b :: rest).dropWhile (· ≠ b) = b :: rest := by
  rw [List.dropWhile_append_of_pos (all_ne_of_not_mem h), List.dropWhile_cons_of_neg (by simp)]

theorem takeWhile_eq_self (h : b ∉ front) : front.takeWhile (· ≠ b) = front :=
  List.takeWhile_eq_self_iff.2 (all_ne_of_not_mem h)

theorem dropWhile_eq_nil (h : b ∉ front) : front.dropWhile (· ≠ b) = [] :=
  List.dropWhile_eq_nil_iff.2 (all_ne_of_not_mem h)

end

theorem lines_of_ended {row : Bytes} (h : newline ∉ row) (rest : Bytes) :
    lines (row ++ newline :: rest) = row :: lines rest := by
  rw [lines]
  split
  case h_1 hdrop =>
    rw [dropWhile_of_not_mem h] at hdrop
    cases hdrop
  case h_2 hdrop =>
    rw [dropWhile_of_not_mem h] at hdrop
    cases hdrop
    rw [takeWhile_of_not_mem h]

theorem lines_of_unended {row : Bytes} (h : newline ∉ row) :
    lines row = if row = [] then [] else [row] := by
  rw [lines]
  split
  case h_1 => rfl
  case h_2 hdrop =>
    rw [dropWhile_eq_nil h] at hdrop
    cases hdrop

/-- Every text has rows, and these only. -/
theorem rows_iff {text : Bytes} {rows : List Bytes} : Rows text rows ↔ lines text = rows := by
  constructor
  · intro h
    induction h with
    | nil => rw [lines_of_unended List.not_mem_nil, if_pos rfl]
    | ended hrow _ ih => rw [lines_of_ended hrow, ih]
    | unended hrow hne => rw [lines_of_unended hrow, if_neg hne]
  · intro h
    -- each newline ends a row
    induction hlength : text.length using Nat.strongRecOn generalizing text rows with
    | ind n ih =>
      by_cases hmem : newline ∈ text
      · obtain ⟨row, rest, rfl, hrow⟩ := List.eq_append_cons_of_mem hmem
        rw [lines_of_ended hrow] at h
        rw [List.length_append, List.length_cons] at hlength
        rw [← h]
        exact .ended hrow (ih _ (by omega) rfl rfl)
      · rw [lines_of_unended hmem] at h
        split at h
        case isTrue hnil =>
          rw [hnil, ← h]
          exact .nil
        case isFalse hne =>
          rw [← h]
          exact .unended hmem hne

/-! ### Events -/

/-- A row without the carriage return at its end, if there is one. -/
inductive Trimmed : (row body : Bytes) → Prop where
  | returned {body : Bytes} : Trimmed (body ++ [carriageReturn]) body
  | plain {row : Bytes} : (∀ body, row ≠ body ++ [carriageReturn]) → Trimmed row row

theorem trimmed_iff {row body : Bytes} : Trimmed row body ↔ trimReturn row = body := by
  unfold trimReturn
  constructor
  · intro h
    cases h with
    | returned => rw [List.getLast?_concat, if_pos rfl, List.dropLast_concat]
    | plain hne =>
      rw [if_neg]
      intro hlast
      obtain ⟨body, hbody⟩ := List.getLast?_eq_some_iff.1 hlast
      exact hne body hbody
  · intro h
    split at h
    case isTrue hlast =>
      obtain ⟨body', rfl⟩ := List.getLast?_eq_some_iff.1 hlast
      rw [List.dropLast_concat] at h
      rw [← h]
      exact .returned
    case isFalse hlast =>
      rw [← h]
      apply Trimmed.plain
      intro body' hbody
      exact hlast (List.getLast?_eq_some_iff.2 ⟨body', hbody⟩)

/-- What stands before the first space, and what stands behind it.  Without a space
    all stands before it. -/
inductive Parted : (body field message : Bytes) → Prop where
  | spaced {field message : Bytes} : space ∉ field → Parted (field ++ space :: message) field message
  | whole {body : Bytes} : space ∉ body → Parted body body []

theorem parted_iff {body field message : Bytes} :
    Parted body field message ↔
      body.takeWhile (· ≠ space) = field ∧ (body.dropWhile (· ≠ space)).drop 1 = message := by
  constructor
  · intro h
    cases h with
    | spaced hfield =>
      rw [takeWhile_of_not_mem hfield, dropWhile_of_not_mem hfield]
      exact ⟨rfl, rfl⟩
    | whole hbody =>
      rw [takeWhile_eq_self hbody, dropWhile_eq_nil hbody]
      exact ⟨rfl, rfl⟩
  · intro h
    obtain ⟨hfield, hmessage⟩ := h
    by_cases hmem : space ∈ body
    · obtain ⟨front, rest, rfl, hfront⟩ := List.eq_append_cons_of_mem hmem
      rw [takeWhile_of_not_mem hfront] at hfield
      rw [dropWhile_of_not_mem hfront] at hmessage
      subst hfield
      subst hmessage
      exact .spaced hfront
    · rw [takeWhile_eq_self hmem] at hfield
      rw [dropWhile_eq_nil hmem] at hmessage
      subst hfield
      subst hmessage
      exact .whole hmem

/-- What a row tells, after an event at the time `prior`: the time that stands before
    its first space and the message behind it, or, if no time stands there, that all of
    it is a message of the same time. -/
inductive Tells (prior : Int64) (row : Bytes) : Event → Prop where
  | stamped {body field message : Bytes} {timestamp : Int64} :
    Trimmed row body → Parted body field message → Decimal.Denotes field timestamp →
    Tells prior row ⟨message, timestamp⟩
  | carried {body field message : Bytes} :
    Trimmed row body → Parted body field message →
    (∀ timestamp, ¬Decimal.Denotes field timestamp) → Tells prior row ⟨body, prior⟩

theorem tells_iff {prior : Int64} {row : Bytes} {event : Event} :
    Tells prior row event ↔ eventOf prior (trimReturn row) = event := by
  unfold eventOf timestamp?
  constructor
  · intro h
    cases h with
    | stamped hbody hparted hdenotes =>
      rw [trimmed_iff.1 hbody, (parted_iff.1 hparted).1, (parted_iff.1 hparted).2,
        Decimal.readInt64_eq_ok_iff.2 hdenotes]
    | carried hbody hparted hnone =>
      rw [trimmed_iff.1 hbody, (parted_iff.1 hparted).1]
      split
      case h_1 field message hread =>
        split at hread
        case h_1 timestamp htimestamp =>
          exact absurd (Decimal.readInt64_eq_ok_iff.1 htimestamp) (hnone timestamp)
        case h_2 => cases hread
      case h_2 => rfl
  · intro h
    have hbody := trimmed_iff.2 (rfl : trimReturn row = trimReturn row)
    have hparted : Parted (trimReturn row) ((trimReturn row).takeWhile (· ≠ space))
        (((trimReturn row).dropWhile (· ≠ space)).drop 1) := parted_iff.2 ⟨rfl, rfl⟩
    cases hread : Decimal.readInt64 ((trimReturn row).takeWhile (· ≠ space)) with
    | ok timestamp =>
      rw [hread] at h
      rw [← h]
      exact .stamped hbody hparted (Decimal.readInt64_eq_ok_iff.1 hread)
    | error fault =>
      rw [hread] at h
      rw [← h]
      apply Tells.carried hbody hparted
      intro timestamp hdenotes
      rw [Decimal.readInt64_eq_ok_iff.2 hdenotes] at hread
      cases hread

/-- What rows tell, one after another. -/
inductive Told : (prior : Int64) → List Bytes → List Event → Prop where
  | nil {prior : Int64} : Told prior [] []
  | cons {prior : Int64} {row : Bytes} {rows : List Bytes} {event : Event} {events : List Event} :
    Tells prior row event → Told event.timestamp rows events →
    Told prior (row :: rows) (event :: events)

theorem told_iff {prior : Int64} {rows : List Bytes} {events : List Event} :
    Told prior rows events ↔ eventsAfter prior rows = events := by
  constructor
  · intro h
    induction h with
    | nil => rfl
    | cons htells _ ih =>
      rw [eventsAfter, tells_iff.1 htells]
      exact congrArg _ ih
  · intro h
    induction rows generalizing prior events with
    | nil =>
      rw [← h]
      exact .nil
    | cons row rows ih =>
      rw [← h]
      exact .cons (tells_iff.2 rfl) (ih rfl)

/-- A message is no longer than its row. -/
theorem Tells.length_le {prior : Int64} {row : Bytes} {event : Event} (h : Tells prior row event) :
    event.message.length ≤ row.length := by
  have hbody {body : Bytes} (h : Trimmed row body) : body.length ≤ row.length := by
    cases h with
    | returned =>
      rw [List.length_append]
      exact Nat.le_add_right ..
    | plain => exact Nat.le_refl _
  cases h with
  | carried htrimmed => exact hbody htrimmed
  | stamped htrimmed hparted =>
    apply Nat.le_trans _ (hbody htrimmed)
    cases hparted with
    | spaced =>
      dsimp only
      rw [List.length_append, List.length_cons]
      omega
    | whole => exact Nat.zero_le _

theorem Told.length_le {prior : Int64} {rows : List Bytes} {events : List Event}
    (h : Told prior rows events) {bound : Nat} (hrows : ∀ row ∈ rows, row.length ≤ bound) :
    ∀ event ∈ events, event.message.length ≤ bound := by
  induction h with
  | nil =>
    intro event hmem
    exact absurd hmem List.not_mem_nil
  | cons htells _ ih =>
    intro event hmem
    rcases List.mem_cons.1 hmem with rfl | hmem
    · exact Nat.le_trans htells.length_le (hrows _ (List.mem_cons_self ..))
    · exact ih (fun row hrow => hrows row (List.mem_cons_of_mem _ hrow)) event hmem

/-! ### Printing -/

/-- The line of an event, with the timestamp as a number. -/
def printed (event : Event) : Bytes :=
  Decimal.ofInteger event.timestamp.toInt ++ space :: event.message ++ [newline]

/-- The text that the events of a text are printed as.  Before the first timestamp the
    time is zero. -/
def Prints (text out : Bytes) : Prop :=
  ∃ rows events, Rows text rows ∧ Told 0 rows events ∧ out = events.flatMap printed

/-- **What is printed** of a text is determined by the text. -/
theorem prints_iff {text out : Bytes} :
    Prints text out ↔ out = ofEvents .epoch (events (lines text)) := by
  constructor
  · intro h
    obtain ⟨rows, told, hrows, htold, hout⟩ := h
    rw [hout, rows_iff.1 hrows, events, told_iff.1 htold]
    rfl
  · intro h
    exact ⟨lines text, _, rows_iff.2 rfl, told_iff.2 rfl, h⟩

/-! ### Reading what was printed -/

/-- A message that is read back from its line: it does not end the line, and nothing is
    taken off at its end. -/
structure OneLine (message : Bytes) : Prop where
  newline_not_mem : newline ∉ message
  not_returned : ∀ body, message ≠ body ++ [carriageReturn]

/-- The line of an event, without the newline that ends it. -/
def printedRow (event : Event) : Bytes :=
  Decimal.ofInteger event.timestamp.toInt ++ space :: event.message

theorem printed_eq (event : Event) (rest : Bytes) :
    printed event ++ rest = printedRow event ++ newline :: rest :=
  List.append_assoc ..

theorem denotes_ofInteger (timestamp : Int64) :
    Decimal.Denotes (Decimal.ofInteger timestamp.toInt) timestamp :=
  Decimal.readInt64_eq_ok_iff.1 (Decimal.readInt64_ofInteger timestamp)

/-- There is no space in a number. -/
theorem space_not_mem_of_denotes {field : Bytes} {timestamp : Int64}
    (h : Decimal.Denotes field timestamp) : space ∉ field := by
  intro hmem
  exact absurd (h.mem space hmem) (by decide)

theorem newline_not_mem_printedRow {event : Event} (h : OneLine event.message) :
    newline ∉ printedRow event := by
  intro hmem
  rcases List.mem_append.1 hmem with hfield | hmem
  · exact absurd ((denotes_ofInteger event.timestamp).mem newline hfield) (by decide)
  · rcases List.mem_cons.1 hmem with hspace | hmessage
    · exact absurd hspace (by decide)
    · exact h.newline_not_mem hmessage

/-- The line of an event ends with its message, or with a space. -/
theorem trimmed_printedRow {event : Event} (h : OneLine event.message) :
    Trimmed (printedRow event) (printedRow event) := by
  apply Trimmed.plain
  intro body hbody
  have hlast := congrArg List.getLast? hbody
  rw [List.getLast?_concat, printedRow, List.getLast?_append_cons] at hlast
  cases hmessage : event.message with
  | nil =>
    rw [hmessage] at hlast
    exact absurd hlast (by decide)
  | cons b rest =>
    rw [hmessage, List.getLast?_cons_cons] at hlast
    obtain ⟨front, hfront⟩ := List.getLast?_eq_some_iff.1 hlast
    exact h.not_returned front (hmessage.trans hfront)

/-- **One printed line** tells its event, whatever was told before it: the first space is
    the one behind the timestamp, so the message may hold any spaces and digits. -/
theorem tells_printedRow {event : Event} (h : OneLine event.message) (prior : Int64) :
    Tells prior (printedRow event) event := by
  have hfield := denotes_ofInteger event.timestamp
  exact .stamped (trimmed_printedRow h) (.spaced (space_not_mem_of_denotes hfield)) hfield

section

variable {events : List Event} (h : ∀ event ∈ events, OneLine event.message)

include h

/-- The rows of what was printed are the lines of the events. -/
theorem rows_printed : Rows (events.flatMap printed) (events.map printedRow) := by
  induction events with
  | nil => exact .nil
  | cons event rest ih =>
    rw [List.flatMap_cons, List.map_cons, printed_eq]
    exact .ended (newline_not_mem_printedRow (h event (List.mem_cons_self ..)))
      (ih fun e hmem => h e (List.mem_cons_of_mem _ hmem))

theorem told_printed (prior : Int64) : Told prior (events.map printedRow) events := by
  induction events generalizing prior with
  | nil => exact .nil
  | cons event rest ih =>
    exact .cons (tells_printedRow (h event (List.mem_cons_self ..)) prior)
      (ih (fun e hmem => h e (List.mem_cons_of_mem _ hmem)) event.timestamp)

/-- **What was printed** is read back. -/
theorem events_lines_printed : TextLog.events (lines (events.flatMap printed)) = events := by
  rw [rows_iff.1 (rows_printed h)]
  exact told_iff.1 (told_printed h 0)

end

end LogCodec.TextLog
