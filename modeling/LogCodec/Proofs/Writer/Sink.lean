import LogCodec.Writer.Sink

/-! # What a sink holds

    A sink that was offered bytes holds what it held before and a part of them
    behind that.  When all were to be written and that succeeded, the part is
    all of them, in however many pieces it was accepted and however often the
    sink was interrupted.  A sink that is to do nothing else accepts everything. -/

namespace LogCodec.Sink

section

variable {s s' : Sink} {bytes : Bytes}

/-- A piece from the front of the bytes that was accepted, and the bytes behind it. -/
theorem bytes_accepted (s : Sink) {piece : Bytes} (h : piece <+: bytes) :
    { s with pieces := piece :: s.pieces }.bytes ++ bytes.drop piece.length =
      s.bytes ++ bytes := by
  obtain ⟨rest, rfl⟩ := h
  simp only [Sink.bytes, List.reverse_cons, List.flatten_append, List.flatten_singleton,
    List.append_assoc, List.drop_left]

/-- What was accepted and what is left of the bytes are the bytes. -/
theorem bytes_of_offer {limit : Option Nat} {rest : Bytes}
    (h : s.offer limit bytes = (.ok rest, s')) : s'.bytes ++ rest = s.bytes ++ bytes := by
  cases limit with
  | some limit =>
    unfold offer at h
    dsimp only at h
    split at h
    · cases h
    split at h <;> cases h
    exact bytes_accepted s (List.take_prefix limit bytes)
  | none =>
    unfold offer at h
    dsimp only at h
    split at h
    · cases h
    split at h <;> cases h
    exact bytes_accepted s (List.prefix_refl bytes)

/-- A sink that accepts all that it is offered leaves no rest. -/
theorem rest_of_offer_none {rest : Bytes} (h : s.offer none bytes = (.ok rest, s')) :
    rest = [] := by
  unfold offer at h
  dsimp only at h
  split at h
  · cases h
  split at h
  · cases h
  cases h
  exact List.drop_length

/-- All bytes are in the sink when writing them succeeded. -/
theorem bytes_of_writeAllBy {plan : List Turn}
    (h : s.writeAllBy plan bytes = (.ok (), s')) : s'.bytes = s.bytes ++ bytes := by
  fun_induction writeAllBy s plan bytes with
  | case1 s plan =>
    -- no rest is left to be offered
    cases h
    exact (List.append_nil _).symm
  | case2 s bytes _ result s₁ hoffer =>
    obtain ⟨hresult, rfl⟩ := Prod.mk.inj h
    cases result with
    | error reason => cases hresult
    | ok rest =>
      have hbytes := bytes_of_offer hoffer
      rw [rest_of_offer_none hoffer, List.append_nil] at hbytes
      exact hbytes
  | case3 s plan bytes _ ih => exact ih h
  | case4 | case5 => cases h
  | case6 s limit plan bytes _ rest s₁ hoffer ih => rw [ih h, bytes_of_offer hoffer]

theorem bytes_of_writeAll (h : s.writeAll bytes = (.ok (), s')) :
    s'.bytes = s.bytes ++ bytes :=
  bytes_of_writeAllBy h

/-- A sink at the end of its plan and without a bound accepts everything. -/
theorem writeAll_of_plan_eq_nil (hplan : s.plan = []) (hbound : s.bound = none) (bytes : Bytes) :
    (s.writeAll bytes).1 = .ok () := by
  rw [writeAll, hplan]
  cases bytes with
  | nil => rfl
  | cons b bytes =>
    have hexcess : s.excess? (b :: bytes).length = none := by rw [excess?, hbound]
    rw [writeAllBy]
    · simp only [offer, hexcess, reduceCtorEq, if_false]
      rfl
    · exact List.cons_ne_nil b bytes

/-- The sink is to do nothing but accept what it is offered. -/
structure Accepts (s : Sink) : Prop where
  plan : s.plan = []
  bound : s.bound = none
  flush : s.flushFailure = none

theorem accepts_empty : empty.Accepts := ⟨rfl, rfl, rfl⟩

theorem Accepts.writeAll (h : s.Accepts) (bytes : Bytes) :
    ∃ s', s.writeAll bytes = (.ok (), s') ∧ s'.Accepts := by
  have hok := writeAll_of_plan_eq_nil h.plan h.bound bytes
  have hkept : (s.writeAll bytes).2.Accepts := by
    rw [Sink.writeAll, h.plan]
    cases bytes with
    | nil => exact ⟨rfl, h.bound, h.flush⟩
    | cons b bytes =>
      have hexcess : s.excess? (b :: bytes).length = none := by rw [excess?, h.bound]
      rw [writeAllBy]
      · simp only [offer, hexcess, reduceCtorEq, if_false]
        exact ⟨rfl, h.bound, h.flush⟩
      · exact List.cons_ne_nil b bytes
  exact ⟨(s.writeAll bytes).2, Prod.ext hok rfl, hkept⟩

end

end LogCodec.Sink
