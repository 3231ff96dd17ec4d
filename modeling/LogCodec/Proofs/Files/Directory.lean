import LogCodec.Files.Directory
import Mathlib.Tactic.Common

/-! # A file that is written is read back

    Following a path passes through folders only.  So a change of what stands at a
    place where there is no folder leads no path elsewhere, and the path by which a
    file was created leads to it afterwards.

    * `Directory.Frees`: the directory has no folder at a place.
    * `Directory.enter_put`, `Directory.follow_put`: paths lead where they led.
    * `Directory.Leads`: where the path of a new file leads, before it is created and
      after.
    * `Directory.read_write_create`: what was written is read. -/

namespace LogCodec.Directory

variable {d : Directory} {place : List String} {data : Bytes}

/-! ### Following paths -/

/-- There is no folder at the place. -/
def Frees (d : Directory) (place : List String) : Prop := d.node? place ≠ some .folder

/-- Only what stands at a place changes. -/
theorem nodeAt?_put {position : Position} (h : position ≠ .inside place) (node : Node) :
    (d.put place node).nodeAt? position = d.nodeAt? position := by
  cases position with
  | outside => rfl
  | inside other =>
    have hne : other ≠ place := by
      intro heq
      exact h (congrArg _ heq)
    exact node?_put_of_ne hne

/-- A part of a path is followed from a folder only. -/
theorem nodeAt?_of_enter {position target : Position} {part : String}
    (h : d.enter position part = .ok target) : d.nodeAt? position = some .folder := by
  unfold enter at h
  split at h
  case h_1 => cases h
  case h_2 => cases h
  case h_3 hnode => exact hnode

/-- An empty part leads nowhere else. -/
theorem eq_of_enter_empty {position target : Position} (h : d.enter position "" = .ok target) :
    target = position := by
  unfold enter at h
  split at h
  · cases h
  · cases h
  rw [if_neg (by decide)] at h
  cases h
  rfl

theorem ne_of_enter (hfree : d.Frees place) {position target : Position} {part : String}
    (h : d.enter position part = .ok target) : position ≠ .inside place := by
  intro heq
  have hfolder := nodeAt?_of_enter h
  rw [heq] at hfolder
  exact hfree hfolder

theorem enter_put (hfree : d.Frees place) {position target : Position} {part : String}
    (h : d.enter position part = .ok target) (node : Node) :
    (d.put place node).enter position part = .ok target := by
  have hnode : (d.put place node).nodeAt? position = d.nodeAt? position :=
    nodeAt?_put (ne_of_enter hfree h) node
  unfold enter at h ⊢
  rw [hnode]
  exact h

theorem foldlM_enter_put (hfree : d.Frees place) {position target : Position} {parts : List String}
    (h : parts.foldlM d.enter position = .ok target) (node : Node) :
    parts.foldlM (d.put place node).enter position = .ok target := by
  induction parts generalizing position with
  | nil => exact h
  | cons part rest ih =>
    rw [List.foldlM_cons] at h ⊢
    cases henter : d.enter position part with
    | error fault =>
      rw [henter] at h
      cases h
    | ok next =>
      rw [henter] at h
      rw [enter_put hfree henter node]
      exact ih h

theorem follow_put (hfree : d.Frees place) {path : String} {parts : List String} {target : Position}
    (h : d.follow path parts = .ok target) (node : Node) :
    (d.put place node).follow path parts = .ok target := by
  unfold follow at h ⊢
  split at h
  · cases h
  split at h
  · cases h
  case isFalse hempty hlong =>
    rw [if_neg hempty, if_neg hlong]
    exact foldlM_enter_put hfree h node

/-- The last part is followed after the others. -/
theorem follow_append {path : String} {parts : List String} {folder : Position}
    (h : d.follow path parts = .ok folder) (part : String) :
    d.follow path (parts ++ [part]) = d.enter folder part := by
  unfold follow at h ⊢
  split at h
  · cases h
  split at h
  · cases h
  case isFalse hempty hlong =>
    rw [if_neg hempty, if_neg hlong, List.foldlM_append, h]
    show (d.enter folder part >>= fun target => pure target) = d.enter folder part
    cases d.enter folder part <;> rfl

/-! ### New files -/

/-- The parts of a path without the empty ones at its end. -/
def named (path : String) : List String := ((Path.parts path).reverse.dropWhile (· = "")).reverse

theorem named_front (path : String) : named path <+: Path.parts path := by
  rw [← List.reverse_suffix, named, List.reverse_reverse]
  exact List.dropWhile_suffix _

/-- The path of a new file leads through a folder to a place where there is none. -/
structure Leads (d : Directory) (path : String) (place : List String) : Prop where
  /-- The path does not end in `/`. -/
  complete : ¬(named path).length < (Path.parts path).length
  enters : ∃ folder, d.follow path (named path).dropLast = .ok folder ∧
    d.enter folder ((named path).getLast?.getD "") = .ok (.inside place)
  free : d.Frees place

/-- The place of a file at a position, if there can be one. -/
def fileAt (d : Directory) (position : Position) : Except FileFault (List String) :=
  match position, d.nodeAt? position with
  | _, some .folder | .outside, _ => .error .isAFolder
  | .inside place, _ => .ok place

theorem fileAt_eq_ok_iff {position : Position} :
    d.fileAt position = .ok place ↔ position = .inside place ∧ d.Frees place := by
  unfold fileAt Frees
  constructor
  · intro h
    split at h
    · cases h
    · cases h
    case h_3 hnode =>
      cases h
      exact ⟨rfl, hnode⟩
  · intro h
    obtain ⟨rfl, hfree⟩ := h
    split
    case h_1 hnode => exact absurd hnode hfree
    case h_2 hposition _ => cases hposition
    case h_3 hposition _ =>
      cases hposition
      rfl

theorem placeFor_eq_ok_iff {path : String} : d.placeFor path = .ok place ↔ d.Leads path place := by
  have hdo : d.placeFor path = d.follow path (named path).dropLast >>= fun folder =>
      if (named path).length < (Path.parts path).length then
        d.enter folder "" >>= fun _ => .error .isAFolder
      else d.enter folder ((named path).getLast?.getD "") >>= d.fileAt := rfl
  rw [hdo]
  constructor
  · intro h
    cases hfolder : d.follow path (named path).dropLast with
    | error fault =>
      rw [hfolder] at h
      cases h
    | ok folder =>
      simp only [hfolder, bind, Except.bind] at h
      split at h
      · split at h <;> cases h
      case isFalse hcomplete =>
        split at h
        · cases h
        case h_2 position henter =>
          obtain ⟨rfl, hfree⟩ := fileAt_eq_ok_iff.1 h
          exact ⟨hcomplete, ⟨folder, hfolder, henter⟩, hfree⟩
  · intro h
    obtain ⟨folder, hfolder, henter⟩ := h.enters
    simp only [hfolder, bind, Except.bind, if_neg h.complete, henter]
    exact fileAt_eq_ok_iff.2 ⟨rfl, h.free⟩

namespace Leads

variable {path : String}

/-- The path leads there also when a file stands at the place. -/
theorem put (h : d.Leads path place) (data : Bytes) :
    (d.put place (.file data)).Leads path place where
  complete := h.complete
  enters := by
    obtain ⟨folder, hfollow, henter⟩ := h.enters
    exact ⟨folder, follow_put h.free hfollow _, enter_put h.free henter _⟩
  free := by
    rw [Frees, node?_put_self]
    intro heq
    cases heq

theorem follow (h : d.Leads path place) :
    d.follow path (Path.parts path) = .ok (.inside place) := by
  have hall : named path = Path.parts path :=
    (named_front path).eq_of_length_le (Nat.le_of_not_lt h.complete)
  obtain ⟨folder, hfollow, henter⟩ := h.enters
  rw [hall] at hfollow henter
  rcases (Path.parts path).eq_nil_or_concat with hnil | ⟨init, name, hparts⟩
  · -- a path without a name leads to a folder
    rw [hnil] at henter
    exact absurd (eq_of_enter_empty henter).symm (ne_of_enter h.free henter)
  · rw [List.concat_eq_append] at hparts
    rw [hparts] at hfollow henter ⊢
    rw [List.dropLast_concat] at hfollow
    rw [List.getLast?_concat] at henter
    rw [follow_append hfollow]
    exact henter

end Leads

/-- **What was written to a new file is read back.** -/
theorem read_write_create {path : String} {d' : Directory} (h : d.create path = .ok d')
    (data : Bytes) : (d'.write path data).read path = .ok (.ofBytes data) := by
  unfold create at h
  cases hplace : d.placeFor path with
  | error fault =>
    rw [hplace] at h
    cases h
  | ok place =>
    rw [hplace] at h
    cases h
    have hcreated := (placeFor_eq_ok_iff.1 hplace).put []
    have hwritten := hcreated.put data
    rw [write, placeFor_eq_ok_iff.2 hcreated]
    simp only [read, hwritten.follow, nodeAt?, node?_put_self]

end LogCodec.Directory
