import LogCodec.Gzip.Member
import LogCodec.Proofs.Reader.Buffer

/-! # Compressed files are steady sources

    The bursts of a file without faults hold all its data, and only the last of them
    says that there is no more.  So a read gives something as long as anything is
    left, however the bursts are cut.

    - `Outflow.counts_step`: one read of such bursts.
    - `Inflater.size_le_runFor`: an inflater never takes back what it wrote.
    - `sound_inflateFrom`: the bursts of data that is inflated to its end.
    - `steadyToEnd_source`: a file whose first member has no faults. -/

namespace LogCodec.Gzip

/-! ### Reading bursts -/

/-- No burst of these is spoiled, none but the last one says that it is the last, and
    together they have so many bytes. -/
inductive Burst.Sound : List Burst → Nat → Prop where
  | nil : Sound [] 0
  | cons {burst : Burst} {rest : List Burst} {size : Nat} :
    burst.ending ≠ .spoiled → (burst.ending = .last → rest = []) → Sound rest size →
    Sound (burst :: rest) (burst.size + size)

namespace Outflow

/-- So many bytes are left, held or in bursts to come. -/
def Left (o : Outflow) (left : Nat) : Prop :=
  ∃ size, Burst.Sound o.bursts size ∧ o.held + size = left

/-- A read that has given something so far gives more from the bursts, or finds them
    empty. -/
theorem collect_counts {bursts : List Burst} {left : Nat} (h : Burst.Sound bursts left)
    {room : Nat} (hroom : 0 < room) (given taken : Nat) :
    ∃ size, (collect room given taken bursts).1.answer = .give (given + size) ∧ size ≤ room ∧
      (given + size = 0 → left = 0) ∧
      (collect room given taken bursts).2.Left (left - size) := by
  induction h generalizing room given taken with
  | nil => exact ⟨0, rfl, Nat.zero_le _, fun _ => rfl, 0, .nil, rfl⟩
  | @cons burst rest left hspoiled hlast hrest ih =>
    unfold collect
    dsimp only
    rw [if_neg hspoiled]
    split
    case isTrue hgoesOn =>
      -- there is room for all of this burst, and the read goes on
      have hsize : burst.size < room := by simpa using (Bool.and_eq_true_iff.1 hgoesOn).2
      rw [Nat.min_eq_left (Nat.le_of_lt hsize)]
      obtain ⟨size, hanswer, hle, hzero, hleft⟩ :=
        ih (Nat.sub_pos_of_lt hsize) (given + burst.size) burst.taken
      refine ⟨burst.size + size, ?_, by omega, by omega, ?_⟩
      · rw [hanswer, Nat.add_assoc]
      · have hsub : burst.size + left - (burst.size + size) = left - size := by omega
        rw [hsub]
        exact hleft
    case isFalse hstops =>
      refine ⟨min burst.size room, rfl, Nat.min_le_right .., ?_, left, hrest, ?_⟩
      · intro hzero
        have hgiven : given = 0 := by omega
        have hsize : burst.size = 0 := by omega
        -- a burst of no bytes ends a read that gives nothing only when it is the last
        have hending : burst.ending = .last := by
          cases hending : burst.ending <;> simp_all
        rw [hlast hending] at hrest
        cases hrest
        exact hsize
      · show burst.size - min burst.size room + left = burst.size + left - min burst.size room
        omega

theorem counts_step : Source.Counts step Left := by
  intro o left room h hroom
  obtain ⟨size, hsound, hleft⟩ := h
  unfold step
  split
  · -- bytes that are held are given first, and alone
    refine ⟨min o.held room, rfl, Nat.min_le_right .., by omega, size, hsound, ?_⟩
    show o.held - min o.held room + size = left - min o.held room
    omega
  · obtain ⟨given, hanswer, hle, hzero, hafter⟩ := collect_counts hsound hroom 0 o.taken
    have hall : left = size := by omega
    rw [Nat.zero_add] at hanswer hzero
    rw [hall]
    exact ⟨given, hanswer, hle, hzero, hafter⟩

end Outflow

/-! ### What an inflater wrote -/

theorem size_copyBack (distance length : Nat) (out : Array UInt8) :
    (copyBack distance length out).size = out.size + length := by
  induction length generalizing out with
  | zero => rfl
  | succ length ih =>
    rw [copyBack, ih, Array.size_push]
    omega

namespace Inflater

/-- A step takes nothing back. -/
theorem size_le_step (limit : Nat) (s : Inflater) : s.out.size ≤ (s.step limit).1.out.size := by
  unfold step
  dsimp only
  split
  case h_1 =>
    split
    · exact Nat.le_refl _
    split <;> exact Nat.le_refl _
  case h_2 =>
    split
    · exact Nat.le_refl _
    split
    · exact Nat.le_refl _
    split
    · exact Nat.le_refl _
    · rw [List.foldl_push_eq_append', Array.size_append]
      exact Nat.le_add_right ..
  case h_3 => split <;> exact Nat.le_refl _
  case h_4 =>
    split
    · exact Nat.le_refl _
    · rw [Array.size_push]
      exact Nat.le_succ _
  case h_5 =>
    split
    · exact Nat.le_refl _
    split
    · exact Nat.le_refl _
    · rw [size_copyBack]
      exact Nat.le_add_right ..

theorem size_le_runFor (limit fuel : Nat) (s : Inflater) :
    s.out.size ≤ (s.runFor limit fuel).1.out.size := by
  fun_induction runFor limit fuel s with
  | case1 s => exact Nat.le_refl _
  | case2 fuel s s' hstep ih =>
    have hle := size_le_step limit s
    rw [hstep] at hle
    exact Nat.le_trans hle ih
  | case3 fuel s s' halt hstep =>
    have hle := size_le_step limit s
    rw [hstep] at hle
    exact hle

theorem size_le_run (limit : Nat) (s : Inflater) : s.out.size ≤ (s.run limit).1.out.size :=
  size_le_runFor limit _ s

end Inflater

/-! ### Inflating to the end -/

namespace Inflation

theorem out_refill (f : Inflation) : f.refill.1.inflater.out = f.inflater.out := by
  unfold refill
  split
  · rfl
  split <;> rfl

/-- The size of a burst is what was written in it. -/
theorem size_advance (f : Inflation) (dry : Bool) :
    f.inflater.out.size + (f.advance dry).2.1.size = (f.advance dry).1.inflater.out.size := by
  have hle : f.inflater.out.size ≤ (f.advance dry).1.inflater.out.size :=
    Inflater.size_le_run ..
  show _ + ((f.advance dry).1.inflater.out.size - f.inflater.out.size) = _
  omega

end Inflation

/-- Data that is inflated to its end comes in sound bursts. -/
theorem sound_inflateFrom {fuel : Nat} {bursts : List Burst} {f : Inflation} {after : Bytes}
    (h : (inflateFrom fuel bursts f).result = .ok after) :
    ∃ more size, (inflateFrom fuel bursts f).bursts = bursts.reverse ++ more ∧
      Burst.Sound more size ∧
      f.inflater.out.size + size = (inflateFrom fuel bursts f).data.length := by
  induction fuel generalizing bursts f with
  | zero => cases h
  | succ fuel ih =>
    have hsize := f.refill.1.size_advance f.refill.2
    rw [f.out_refill] at hsize
    unfold inflateFrom at h ⊢
    dsimp only at h ⊢
    generalize f.refill.1.advance f.refill.2 = advanced at h hsize ⊢
    obtain ⟨f', burst, halt⟩ := advanced
    dsimp only at h hsize ⊢
    -- the burst in front of those of the rest
    have hfront (hspoiled : burst.ending ≠ .spoiled) (hlast : burst.ending ≠ .last)
        (h : (inflateFrom fuel (burst :: bursts) f').result = .ok after) :
        ∃ more size, (inflateFrom fuel (burst :: bursts) f').bursts = bursts.reverse ++ more ∧
          Burst.Sound more size ∧
          f.inflater.out.size + size =
            (inflateFrom fuel (burst :: bursts) f').data.length := by
      obtain ⟨more, size, hbursts, hsound, hlength⟩ := ih h
      refine ⟨burst :: more, burst.size + size, ?_, .cons hspoiled (absurd · hlast) hsound, ?_⟩
      · rw [hbursts, List.reverse_cons, List.append_assoc]
        rfl
      · omega
    cases hending : burst.ending with
    | more | pause =>
      rw [hending] at h hfront
      exact hfront (by decide) (by decide) h
    | spoiled =>
      rw [hending] at h
      cases h
    | last =>
      rw [hending] at h
      cases halt with
      | ended =>
        refine ⟨[burst], burst.size + 0, List.reverse_cons, ?_, ?_⟩
        · exact .cons (by rw [hending]; decide) (fun _ => rfl) .nil
        · rw [Nat.add_zero, hsize, Array.length_toList]
      | full | stopped => cases h

/-- Inflating starts with nothing written, and with a piece of the file. -/
theorem inflate_eq (start : Nat) (bytes : Bytes) :
    ∃ (size : Nat) (f : Inflation), inflate start bytes = inflateFrom (bytes.length + 4) [] f ∧
      f.inflater = ⟨.ofBytes (bytes.take size), .between, false, #[]⟩ ∧
      f.rest = bytes.drop size ∧ f.drained = (bytes.take size).isEmpty :=
  ⟨_, _, rfl, rfl, rfl, rfl⟩

theorem sound_inflate {start : Nat} {bytes after : Bytes} {inflated : Inflated}
    (hinflate : inflate start bytes = inflated) (hresult : inflated.result = .ok after) :
    Burst.Sound inflated.bursts inflated.data.length := by
  obtain ⟨size, f, heq, hinflater, -, -⟩ := inflate_eq start bytes
  rw [heq] at hinflate
  rw [← hinflate] at hresult ⊢
  obtain ⟨more, written, hbursts, hsound, hlength⟩ := sound_inflateFrom hresult
  rw [hinflater, Array.size_empty, Nat.zero_add] at hlength
  rw [hbursts, ← hlength]
  exact hsound

/-! ### Files -/

/-- The member of a file that can be inflated to its end. -/
theorem firstMember_of_inflate {bytes rest after : Bytes} (hheader : skipHeader bytes = .ok rest)
    {inflated : Inflated} (hinflate : inflate (bytes.length - rest.length) rest = inflated)
    (hresult : inflated.result = .ok after) :
    firstMember bytes =
      ⟨inflated.data, ⟨0, inflated.bursts, 0⟩, checkTrailer inflated.data after⟩ := by
  simp only [firstMember, hheader, hinflate, hresult]

/-- A member without faults was inflated to its end. -/
theorem inflated_of_failure {bytes : Bytes} (h : (firstMember bytes).failure = none) :
    ∃ rest inflated after, skipHeader bytes = .ok rest ∧
      inflate (bytes.length - rest.length) rest = inflated ∧ inflated.result = .ok after := by
  cases hheader : skipHeader bytes with
  | error reason =>
    simp only [firstMember, hheader] at h
    cases h
  | ok rest =>
    cases hresult : (inflate (bytes.length - rest.length) rest).result with
    | ok after => exact ⟨rest, _, after, rfl, rfl, hresult⟩
    | error stop =>
      simp only [firstMember, hheader, hresult] at h
      cases stop <;> cases h

/-- **A compressed file is a steady source** of its data, when its first member has no
    faults. -/
theorem steadyToEnd_source {bytes : Bytes} (h : (firstMember bytes).failure = none) :
    (source (.ofBytes bytes)).SteadyToEnd := by
  have hsource : source (.ofBytes bytes) = ⟨(firstMember bytes).data,
      Source.planFrom Outflow.step (firstMember bytes).outflow, [], none⟩ := by
    simp only [source, Contents.ofBytes, h]
  obtain ⟨rest, inflated, after, hheader, hinflate, hresult⟩ := inflated_of_failure h
  have hsound := sound_inflate hinflate hresult
  rw [hsource, firstMember_of_inflate hheader hinflate hresult]
  exact Source.steadyToEnd_planFrom Outflow.counts_step ⟨_, hsound, Nat.zero_add _⟩

end LogCodec.Gzip
