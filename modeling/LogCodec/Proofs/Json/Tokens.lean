import LogCodec.Json.Value
import Mathlib.Order.Nat
import Mathlib.Tactic.Common

/-! # A value is read from its own tokens

    The machine that puts tokens together keeps a stack of what is open.  Each state of it
    tells which tokens were read, and each step adds one to them.

    * `Json.tokens`: the tokens of a value.  `Json.depth`: how many arrays and objects are
      inside one another.
    * `State.read`, `State.Sound`: the tokens that were read up to a state, and what else
      holds of it.  `sound_step` is the step lemma.
    * `foldlM_tokens`: the tokens of a value take the machine past that value.
    * `ofTokens?_eq_some_iff`: a value is put together from its tokens and from no others,
      and only if it is not too deep. -/

namespace LogCodec.Json

/-! ### Steps that may fail -/

section

variable {σ α : Type} {step : σ → α → Option σ} {s s' : σ}

theorem foldlM_cons_of_some {a : α} (h : step s a = some s') (rest : List α) :
    (a :: rest).foldlM step s = rest.foldlM step s' := by
  rw [List.foldlM_cons, h, Option.bind_eq_bind, Option.bind_some]

theorem foldlM_append_of_some {front : List α} (h : front.foldlM step s = some s')
    (rest : List α) : (front ++ rest).foldlM step s = rest.foldlM step s' := by
  rw [List.foldlM_append, h, Option.bind_eq_bind, Option.bind_some]

end

/-! ### The tokens of a value -/

mutual

/-- The tokens of a value. -/
def tokens : Json → List Token
  | .null => [.null]
  | .bool b => [.bool b]
  | .number text => [.number text]
  | .string chars => [.string chars]
  | .array items => .openArray :: ([.comma].intercalate (itemTokens items) ++ [.closeArray])
  | .object members =>
    .openObject :: ([.comma].intercalate (memberTokens members) ++ [.closeObject])

/-- The tokens of each item. -/
def itemTokens : List Json → List (List Token)
  | [] => []
  | item :: rest => item.tokens :: itemTokens rest

/-- The tokens of each member. -/
def memberTokens : List (List Char × Json) → List (List Token)
  | [] => []
  | (key, value) :: rest => (.string key :: .colon :: value.tokens) :: memberTokens rest

end

mutual

/-- How many arrays and objects are inside one another. -/
def depth : Json → Nat
  | .array items => itemsDepth items + 1
  | .object members => membersDepth members + 1
  | _ => 0

def itemsDepth : List Json → Nat
  | [] => 0
  | item :: rest => max item.depth (itemsDepth rest)

def membersDepth : List (List Char × Json) → Nat
  | [] => 0
  | (_, value) :: rest => max value.depth (membersDepth rest)

end

theorem itemTokens_eq_map (items : List Json) : itemTokens items = items.map tokens := by
  induction items with
  | nil => rfl
  | cons item rest ih => rw [itemTokens, ih, List.map_cons]

theorem memberTokens_eq_map (members : List (List Char × Json)) :
    memberTokens members = members.map fun m => .string m.1 :: .colon :: m.2.tokens := by
  induction members with
  | nil => rfl
  | cons member rest ih => rw [memberTokens, ih, List.map_cons]

theorem itemsDepth_le_iff {items : List Json} {n : Nat} :
    itemsDepth items ≤ n ↔ ∀ item ∈ items, item.depth ≤ n := by
  induction items with
  | nil => simp [itemsDepth]
  | cons item rest ih => rw [itemsDepth, Nat.max_le, ih, List.forall_mem_cons]

theorem membersDepth_le_iff {members : List (List Char × Json)} {n : Nat} :
    membersDepth members ≤ n ↔ ∀ m ∈ members, m.2.depth ≤ n := by
  induction members with
  | nil => simp [membersDepth]
  | cons member rest ih => rw [membersDepth, Nat.max_le, ih, List.forall_mem_cons]

theorem itemsDepth_reverse (items : List Json) : itemsDepth items.reverse = itemsDepth items := by
  apply eq_of_forall_ge_iff
  intro n
  simp only [itemsDepth_le_iff, List.mem_reverse]

theorem membersDepth_reverse (members : List (List Char × Json)) :
    membersDepth members.reverse = membersDepth members := by
  apply eq_of_forall_ge_iff
  intro n
  simp only [membersDepth_le_iff, List.mem_reverse]

/-! ### Parts with a separator -/

section

variable {α : Type} (separator : α) (parts : List (List α))

/-- All parts but the last are followed by the separator. -/
theorem intercalate_append_singleton (part : List α) :
    [separator].intercalate (parts ++ [part]) =
      parts.flatMap (· ++ [separator]) ++ part := by
  induction parts with
  | nil => simp
  | cons first rest ih =>
    have hne : rest ++ [part] ≠ [] := by simp
    rw [List.cons_append, List.intercalate_cons_of_ne_nil hne, ih]
    simp

theorem intercalate_append_separator {parts : List (List α)} (h : parts ≠ []) :
    [separator].intercalate parts ++ [separator] = parts.flatMap (· ++ [separator]) := by
  rw [← List.dropLast_concat_getLast h, intercalate_append_singleton, List.flatMap_append]
  simp

end

/-! ### What was read up to a state -/

/-- The tokens of what is open, when a value comes next. -/
def Frame.begun : Frame → List Token
  | .array items => .openArray :: (itemTokens items.reverse).flatMap (· ++ [.comma])
  | .object members key =>
    .openObject :: ((memberTokens members.reverse).flatMap (· ++ [.comma]) ++
      [.string key, .colon])

/-- The tokens of all that is open, from the outermost on. -/
def begun (stack : List Frame) : List Token := stack.reverse.flatMap Frame.begun

theorem begun_cons (frame : Frame) (stack : List Frame) :
    begun (frame :: stack) = begun stack ++ frame.begun := by
  simp [begun]

/-- How deep what stands in the frame is. -/
def Frame.depth : Frame → Nat
  | .array items => itemsDepth items
  | .object members _ => membersDepth members

/-- What is open can be closed without being too deep. -/
def Shallow : List Frame → Prop
  | [] => True
  | frame :: stack => frame.depth + stack.length < depthMax ∧ Shallow stack

namespace State

/-- The tokens that were read. -/
def read : State → List Token
  | .value stack => begun stack
  | .firstItem stack => begun stack ++ [.openArray]
  | .firstKey stack => begun stack ++ [.openObject]
  | .key stack members =>
    begun stack ++ .openObject :: (memberTokens members.reverse).flatMap (· ++ [.comma])
  | .colon stack members name =>
    begun stack ++ .openObject :: ((memberTokens members.reverse).flatMap (· ++ [.comma]) ++
      [.string name])
  | .separator (.array items) stack =>
    begun stack ++ .openArray :: [.comma].intercalate (itemTokens items.reverse)
  | .separator (.object members _) stack =>
    begun stack ++ .openObject :: [.comma].intercalate (memberTokens members.reverse)
  | .finished v => v.tokens

/-- Something stands in front of a separator, and nothing is too deep. -/
def Sound : State → Prop
  | .value stack => Shallow stack
  | .firstItem stack | .firstKey stack => stack.length < depthMax ∧ Shallow stack
  | .key stack members | .colon stack members _ =>
    membersDepth members + stack.length < depthMax ∧ Shallow stack
  | .separator (.array items) stack => items ≠ [] ∧ Shallow (.array items :: stack)
  | .separator (.object members name) stack =>
    members ≠ [] ∧ Shallow (.object members name :: stack)
  | .finished v => v.depth ≤ depthMax

end State

/-- A value was read where the stack expected one. -/
theorem sound_complete {value : Json} {stack : List Frame} (hstack : Shallow stack)
    (hdepth : value.depth + stack.length ≤ depthMax) :
    (complete value stack).Sound ∧ (complete value stack).read = begun stack ++ value.tokens := by
  cases stack with
  | nil => exact ⟨hdepth, rfl⟩
  | cons frame stack =>
    obtain ⟨hframe, hstack⟩ := hstack
    rw [List.length_cons] at hdepth
    cases frame with
    | array items =>
      rw [Frame.depth] at hframe
      refine ⟨⟨List.cons_ne_nil _ _, ?_, hstack⟩, ?_⟩
      · rw [Frame.depth, itemsDepth]
        omega
      · simp only [complete, State.read, begun_cons, Frame.begun, itemTokens_eq_map,
          List.reverse_cons, List.map_append, List.map_cons, List.map_nil,
          intercalate_append_singleton, List.append_assoc, List.cons_append]
    | object members key =>
      rw [Frame.depth] at hframe
      refine ⟨⟨List.cons_ne_nil _ _, ?_, hstack⟩, ?_⟩
      · rw [Frame.depth, membersDepth]
        omega
      · simp only [complete, State.read, begun_cons, Frame.begun, memberTokens_eq_map,
          List.reverse_cons, List.map_append, List.map_cons, List.map_nil,
          intercalate_append_singleton, List.append_assoc, List.cons_append, List.nil_append]

/-- A token was read where the stack expected a value. -/
theorem sound_startValue {t : Token} {s : State} {stack : List Frame} (hstack : Shallow stack)
    (hlength : stack.length ≤ depthMax) (h : startValue stack t = some s) :
    s.Sound ∧ s.read = begun stack ++ [t] := by
  have hscalar {value : Json} (hdepth : value.depth = 0) (htokens : value.tokens = [t])
      (hs : complete value stack = s) : s.Sound ∧ s.read = begun stack ++ [t] := by
    rw [← hs, ← htokens]
    exact sound_complete hstack (by omega)
  have henter {next : State} (hs : enter stack next = some s) :
      stack.length < depthMax ∧ next = s := by
    rw [enter] at hs
    obtain ⟨hlt, hs⟩ := Option.ite_none_right_eq_some.1 hs
    exact ⟨hlt, Option.some.inj hs⟩
  cases t with
  | openObject | openArray =>
    obtain ⟨hlt, rfl⟩ := henter h
    exact ⟨⟨hlt, hstack⟩, rfl⟩
  | null | bool | number | string => exact hscalar rfl (by rw [tokens]) (Option.some.inj h)
  | closeObject | closeArray | colon | comma => cases h

theorem length_le_of_shallow {stack : List Frame} (h : Shallow stack) :
    stack.length ≤ depthMax := by
  cases stack with
  | nil => exact Nat.zero_le _
  | cons frame stack =>
    have hframe := h.1
    rw [List.length_cons]
    omega

/-- The end of an array. -/
theorem sound_closeArray {items : List Json} {stack : List Frame}
    (h : Shallow (.array items :: stack)) :
    (complete (.array items.reverse) stack).Sound ∧
      (complete (.array items.reverse) stack).read = begun stack ++
        (.openArray :: [.comma].intercalate (itemTokens items.reverse)) ++ [.closeArray] := by
  obtain ⟨hdepth, hstack⟩ := h
  have harray : (Json.array items.reverse).depth + stack.length ≤ depthMax := by
    rw [depth, itemsDepth_reverse]
    rw [Frame.depth] at hdepth
    omega
  have hread := sound_complete hstack harray
  rwa [tokens, ← List.cons_append, ← List.append_assoc] at hread

/-- The end of an object. -/
theorem sound_closeObject {members : List (List Char × Json)} {stack : List Frame}
    (h : membersDepth members + stack.length < depthMax) (hstack : Shallow stack) :
    (complete (.object members.reverse) stack).Sound ∧
      (complete (.object members.reverse) stack).read = begun stack ++
        (.openObject :: [.comma].intercalate (memberTokens members.reverse)) ++ [.closeObject] := by
  have hobject : (Json.object members.reverse).depth + stack.length ≤ depthMax := by
    rw [depth, membersDepth_reverse]
    omega
  have hread := sound_complete hstack hobject
  rwa [tokens, ← List.cons_append, ← List.append_assoc] at hread

theorem step_firstItem {t : Token} (h : t ≠ .closeArray) (stack : List Frame) :
    step (.firstItem stack) t = startValue (.array [] :: stack) t := by
  cases t with
  | closeArray => exact absurd rfl h
  | _ => rfl

/-- **One token.**  What was read grows by it. -/
theorem sound_step {s s' : State} {t : Token} (hs : s.Sound) (h : step s t = some s') :
    s'.Sound ∧ s'.read = s.read ++ [t] := by
  cases s with
  | value stack => exact sound_startValue hs (length_le_of_shallow hs) h
  | firstItem stack =>
    obtain ⟨hlength, hstack⟩ := hs
    have hshallow : Shallow (.array [] :: stack) :=
      ⟨by rwa [Frame.depth, itemsDepth, Nat.zero_add], hstack⟩
    by_cases ht : t = .closeArray
    · subst ht
      obtain rfl := Option.some.inj h
      exact sound_closeArray hshallow
    · rw [step_firstItem ht] at h
      have hopen : begun (.array [] :: stack) = (State.firstItem stack).read := begun_cons _ _
      rw [← hopen]
      exact sound_startValue hshallow hlength h
  | firstKey stack =>
    obtain ⟨hlength, hstack⟩ := hs
    have hempty : membersDepth [] + stack.length < depthMax := by
      rwa [membersDepth, Nat.zero_add]
    cases t with
    | closeObject =>
      obtain rfl := Option.some.inj h
      exact sound_closeObject hempty hstack
    | string name =>
      obtain rfl := Option.some.inj h
      refine ⟨⟨hempty, hstack⟩, ?_⟩
      simp [State.read, memberTokens]
    | _ => cases h
  | key stack members =>
    cases t with
    | string name =>
      obtain rfl := Option.some.inj h
      refine ⟨hs, ?_⟩
      simp [State.read]
    | _ => cases h
  | colon stack members name =>
    cases t with
    | colon =>
      obtain rfl := Option.some.inj h
      refine ⟨hs, ?_⟩
      simp [State.read, begun_cons, Frame.begun]
    | _ => cases h
  | separator frame stack =>
    cases frame with
    | array items =>
      obtain ⟨hne, hshallow⟩ := hs
      cases t with
      | comma =>
        obtain rfl := Option.some.inj h
        have hparts : itemTokens items.reverse ≠ [] := by simpa [itemTokens_eq_map] using hne
        refine ⟨hshallow, ?_⟩
        rw [State.read, begun_cons, Frame.begun, ← intercalate_append_separator _ hparts,
          State.read, List.append_assoc, List.cons_append]
      | closeArray =>
        obtain rfl := Option.some.inj h
        exact sound_closeArray hshallow
      | _ => cases h
    | object members name =>
      obtain ⟨hne, hshallow⟩ := hs
      cases t with
      | comma =>
        obtain rfl := Option.some.inj h
        have hparts : memberTokens members.reverse ≠ [] := by simpa [memberTokens_eq_map] using hne
        refine ⟨hshallow, ?_⟩
        rw [State.read, ← intercalate_append_separator _ hparts, State.read, List.append_assoc,
          List.cons_append]
      | closeObject =>
        obtain rfl := Option.some.inj h
        exact sound_closeObject hshallow.1 hshallow.2
      | _ => cases h
  | finished v => cases h

/-- **All tokens.**  What was read at the end is what was read before, and the tokens. -/
theorem sound_foldlM {ts : List Token} {s s' : State} (hs : s.Sound)
    (h : ts.foldlM step s = some s') : s'.Sound ∧ s'.read = s.read ++ ts := by
  induction ts generalizing s with
  | nil =>
    obtain rfl := Option.some.inj h
    exact ⟨hs, (List.append_nil _).symm⟩
  | cons t ts ih =>
    rw [List.foldlM_cons, Option.bind_eq_bind] at h
    obtain ⟨next, hnext, h⟩ := Option.bind_eq_some_iff.1 h
    obtain ⟨hsound, hread⟩ := sound_step hs hnext
    obtain ⟨hend, hrest⟩ := ih hsound h
    refine ⟨hend, ?_⟩
    rw [hrest, hread, List.append_assoc, List.singleton_append]

/-! ### The tokens of a value are read -/

/-- Where a value may come next: whatever starts a value is read as it is on the stack. -/
def Expects (s : State) (stack : List Frame) : Prop :=
  ∀ t, t ≠ .closeArray → step s t = startValue stack t

theorem expects_value (stack : List Frame) : Expects (.value stack) stack := fun _ _ => rfl

theorem expects_firstItem (stack : List Frame) :
    Expects (.firstItem stack) (.array [] :: stack) := fun _ h => step_firstItem h stack

theorem Expects.foldlM_singleton {s s' : State} {stack : List Frame} {t : Token}
    (hs : Expects s stack) (ht : t ≠ .closeArray) (h : startValue stack t = some s') :
    [t].foldlM step s = some s' := by
  rw [← hs t ht] at h
  rw [foldlM_cons_of_some h]
  rfl

mutual

/-- **The tokens of a value are read as that value.** -/
theorem foldlM_tokens {s : State} {stack : List Frame} (hs : Expects s stack) :
    ∀ v : Json, v.depth + stack.length ≤ depthMax →
      v.tokens.foldlM step s = some (complete v stack)
  | .null, _ | .bool _, _ | .number _, _ | .string _, _ => by
    rw [tokens]
    exact hs.foldlM_singleton nofun rfl
  | .array items, hdepth => by
    have hopen : step s .openArray = some (.firstItem stack) := by
      rw [hs .openArray nofun, startValue, enter, if_pos]
      rw [depth] at hdepth
      omega
    rw [tokens, foldlM_cons_of_some hopen]
    match items with
    | [] => rfl
    | item :: rest =>
      have hlt : itemsDepth (item :: rest) + stack.length < depthMax := by
        rw [depth] at hdepth
        omega
      rw [foldlM_append_of_some
        (foldlM_items (expects_firstItem stack) (item :: rest) (List.cons_ne_nil _ _) hlt)]
      simp [step]
  | .object members, hdepth => by
    have hopen : step s .openObject = some (.firstKey stack) := by
      rw [hs .openObject nofun, startValue, enter, if_pos]
      rw [depth] at hdepth
      omega
    rw [tokens, foldlM_cons_of_some hopen]
    match members with
    | [] => rfl
    | member :: rest =>
      have hlt : membersDepth (member :: rest) + stack.length < depthMax := by
        rw [depth] at hdepth
        omega
      obtain ⟨name, hname⟩ := foldlM_memberTokens (s := .firstKey stack) (fun _ => rfl)
        (member :: rest) (List.cons_ne_nil _ _) hlt
      rw [foldlM_append_of_some hname]
      simp [step]

/-- Items are put in front of those before them. -/
theorem foldlM_items {s : State} {stack : List Frame} {before : List Json}
    (hs : Expects s (.array before :: stack)) :
    ∀ items : List Json, items ≠ [] → itemsDepth items + stack.length < depthMax →
      ([Token.comma].intercalate (itemTokens items)).foldlM step s =
        some (.separator (.array (items.reverse ++ before)) stack)
  | [], hne, _ => absurd rfl hne
  | item :: rest, _, hdepth => by
    rw [itemsDepth] at hdepth
    have hitem : item.tokens.foldlM step s = some (.separator (.array (item :: before)) stack) :=
      foldlM_tokens hs item (by rw [List.length_cons]; omega)
    by_cases hrest : rest = []
    · subst hrest
      simpa [itemTokens, List.intercalate] using hitem
    · have hparts : itemTokens rest ≠ [] := by simpa [itemTokens_eq_map] using hrest
      have hcomma : step (.separator (.array (item :: before)) stack) .comma =
          some (.value (.array (item :: before) :: stack)) := rfl
      rw [itemTokens, List.intercalate_cons_of_ne_nil hparts, List.append_assoc,
        foldlM_append_of_some hitem, List.singleton_append, foldlM_cons_of_some hcomma,
        foldlM_items (expects_value _) rest hrest (by omega), List.reverse_cons,
        List.append_assoc, List.singleton_append]

/-- Members are put in front of those before them. -/
theorem foldlM_memberTokens {s : State} {stack : List Frame} {before : List (List Char × Json)}
    (hs : ∀ name, step s (.string name) = some (.colon stack before name)) :
    ∀ members : List (List Char × Json), members ≠ [] →
      membersDepth members + stack.length < depthMax →
      ∃ name, ([Token.comma].intercalate (memberTokens members)).foldlM step s =
        some (.separator (.object (members.reverse ++ before) name) stack)
  | [], hne, _ => absurd rfl hne
  | (name, v) :: rest, _, hdepth => by
    rw [membersDepth] at hdepth
    have hcolon : step (.colon stack before name) .colon =
        some (.value (.object before name :: stack)) := rfl
    have hmember : (Token.string name :: .colon :: v.tokens).foldlM step s =
        some (.separator (.object ((name, v) :: before) name) stack) := by
      rw [foldlM_cons_of_some (hs name), foldlM_cons_of_some hcolon]
      exact foldlM_tokens (expects_value _) v (by rw [List.length_cons]; omega)
    by_cases hrest : rest = []
    · subst hrest
      refine ⟨name, ?_⟩
      simpa [memberTokens, List.intercalate] using hmember
    · have hparts : memberTokens rest ≠ [] := by simpa [memberTokens_eq_map] using hrest
      have hcomma : step (.separator (.object ((name, v) :: before) name) stack) .comma =
          some (.key stack ((name, v) :: before)) := rfl
      obtain ⟨last, hlast⟩ := foldlM_memberTokens (s := .key stack ((name, v) :: before))
        (fun _ => rfl) rest hrest (by omega)
      refine ⟨last, ?_⟩
      rw [memberTokens, List.intercalate_cons_of_ne_nil hparts, List.append_assoc,
        foldlM_append_of_some hmember, List.singleton_append, foldlM_cons_of_some hcomma, hlast,
        List.reverse_cons, List.append_assoc, List.singleton_append]

end

/-- A value is put together from its own tokens, unless it is too deep. -/
theorem ofTokens?_eq_some_iff {ts : List Token} {v : Json} :
    ofTokens? ts = some v ↔ v.tokens = ts ∧ v.depth ≤ depthMax := by
  constructor
  · intro h
    rw [ofTokens?] at h
    split at h
    · rename_i v' hrun
      obtain rfl := Option.some.inj h
      obtain ⟨hsound, hread⟩ := sound_foldlM (s := .value []) trivial hrun
      exact ⟨hread, hsound⟩
    · cases h
  · rintro ⟨rfl, hdepth⟩
    rw [ofTokens?, foldlM_tokens (expects_value []) v hdepth]
    rfl

end LogCodec.Json
