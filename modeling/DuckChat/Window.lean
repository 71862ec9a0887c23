import DuckChat.ServerRules
import DuckChat.Lib.Ring

/-!
# The window of recent identifiers over long runs

`recent_ids` has `MAX_IDS` slots and `num_ids` counts every identifier ever recorded. Recording
takes the counter modulo the size, so the slots are a ring buffer; `has_id` is given the counter as
it is, so a search that does not find its identifier runs on behind the array once more than
`MAX_IDS` identifiers have been recorded. The counter itself ends at `INT_MAX`.

## Main definitions

* `RecentIds.recordAll` — record one identifier after the other
* `RecentIds.Holds` — the window after the identifiers of a list
* `WindowSound` — no access is outside the array, and the search answers for the last `MAX_IDS`

## Main results

* `windowSound_iff` — up to `MAX_IDS` identifiers, and from there on for those in the window
* `Reachable.exists_holds` — the window of a server is that of the identifiers it recorded
-/

set_option autoImplicit false

namespace DuckChat

namespace RecentIds

/-- Record one identifier after the other. -/
def recordAll (ids : RecentIds) : List Id → Except Fault RecentIds
  | [] => .ok ids
  | id :: rest => do
    let ids ← ids.record id
    ids.recordAll rest

/-- The window after the identifiers of a list: a ring buffer of them, and their number. -/
structure Holds (ids : RecentIds) (xs : List Id) : Prop where
  numIds : ids.numIds = xs.length
  ring : Ring MAX_IDS xs ids.slots

variable {ids ids' : RecentIds} {xs ys : List Id} {id : Id}

theorem holds_empty : empty.Holds [] := ⟨rfl, Ring.nil MAX_IDS⟩

/-- Recording is a store into the ring. -/
theorem record_eq_ok_iff :
    ids.record id = .ok ids' ↔
      ids.numIds ≠ INT_MAX ∧ ids'.numIds = ids.numIds + 1 ∧
        ids'.slots = ringPut MAX_IDS ids.numIds ids.slots id := by
  obtain ⟨slots', n', hfilled⟩ := ids'
  unfold record ringPut
  by_cases hmax : ids.numIds = INT_MAX
  · simp [hmax]
  · by_cases hlt : ids.numIds < MAX_IDS
    · simp [hmax, hlt, and_comm, eq_comm]
    · simp [hmax, hlt, and_comm, eq_comm]

/-- The step lemma. -/
theorem Holds.record (h : ids.Holds xs) (hr : ids.record id = .ok ids') :
    ids'.Holds (xs ++ [id]) := by
  obtain ⟨-, hn, hslots⟩ := record_eq_ok_iff.mp hr
  refine ⟨?_, ?_⟩
  · rw [hn, h.numIds, List.length_append, List.length_singleton]
  · rw [hslots, h.numIds]
    exact h.ring.put (by decide) id

theorem exists_record (id : Id) (h : ids.numIds ≠ INT_MAX) : ∃ ids', ids.record id = .ok ids' := by
  cases hr : ids.record id with
  | ok ids' => exact ⟨ids', rfl⟩
  | error f =>
    unfold RecentIds.record at hr
    rw [if_neg h] at hr
    split at hr <;> cases hr

/-- The run lemma: the counter stops a run at `INT_MAX`. -/
theorem Holds.exists_recordAll (h : ids.Holds xs) (ys : List Id)
    (hle : xs.length + ys.length ≤ INT_MAX) :
    ∃ ids', ids.recordAll ys = .ok ids' ∧ ids'.Holds (xs ++ ys) := by
  induction ys generalizing ids xs with
  | nil => exact ⟨ids, rfl, by rwa [List.append_nil]⟩
  | cons y ys ih =>
    rw [List.length_cons] at hle
    obtain ⟨ids₁, h₁⟩ := exists_record y (show ids.numIds ≠ INT_MAX by rw [h.numIds]; omega)
    obtain ⟨ids₂, h₂, hh⟩ := ih (h.record h₁) (by rw [List.length_append, List.length_singleton]
                                                  omega)
    refine ⟨ids₂, ?_, by rwa [List.append_assoc] at hh⟩
    rw [recordAll, h₁]
    exact h₂

theorem Holds.recordAll_le (h : ids.Holds xs) (hr : ids.recordAll ys = .ok ids')
    (hle : xs.length ≤ INT_MAX) : xs.length + ys.length ≤ INT_MAX := by
  induction ys generalizing ids xs with
  | nil => simpa using hle
  | cons y ys ih =>
    rw [recordAll] at hr
    cases h₁ : ids.record y with
    | error f => rw [h₁] at hr; cases hr
    | ok ids₁ =>
      rw [h₁] at hr
      have hne := (record_eq_ok_iff.mp h₁).1
      have := ih (h.record h₁) hr (by rw [List.length_append, List.length_singleton]
                                      have := h.numIds
                                      omega)
      rw [List.length_append, List.length_singleton] at this
      rw [List.length_cons]
      omega

/-- What `has_id` answers for. -/
theorem Holds.hasId_eq_true (h : ids.Holds xs) :
    hasId ids id = .ok true ↔ id ∈ xs.rtake MAX_IDS := by
  rw [hasId_eq_ok_true, h.ring.mem_iff]

/-- What it denies: only up to `MAX_IDS` recorded identifiers does the search end in the array. -/
theorem Holds.hasId_eq_false (h : ids.Holds xs) :
    hasId ids id = .ok false ↔ id ∉ xs.rtake MAX_IDS ∧ xs.length ≤ MAX_IDS := by
  rw [hasId_eq_ok_false, Seen, not_or, h.ring.mem_iff, h.numIds, Nat.not_lt]

end RecentIds

/-! ### When the window is sound -/

/-- After recording a list from the empty window no store has missed the array, and the search for
an identifier reads inside the array and answers whether it is among the last `MAX_IDS`. -/
def WindowSound (xs : List Id) (id : Id) : Prop :=
  ∃ ids, RecentIds.empty.recordAll xs = .ok ids ∧
    hasId ids id = .ok (decide (id ∈ xs.rtake MAX_IDS))

/-- **The window is sound for the first `MAX_IDS` identifiers.** After that it is so only for the
identifiers it finds, and only until the counter overflows. -/
theorem windowSound_iff (xs : List Id) (id : Id) :
    WindowSound xs id ↔
      xs.length ≤ MAX_IDS ∨ xs.length ≤ INT_MAX ∧ id ∈ xs.rtake MAX_IDS := by
  have hmax : MAX_IDS ≤ INT_MAX := by decide
  constructor
  · rintro ⟨ids, hr, hid⟩
    have hle := RecentIds.holds_empty.recordAll_le hr (Nat.zero_le _)
    obtain ⟨ids', hr', h⟩ := RecentIds.holds_empty.exists_recordAll xs hle
    rw [List.nil_append] at h
    rw [List.length_nil, Nat.zero_add] at hle
    rw [hr] at hr'
    cases hr'
    by_cases hmem : id ∈ xs.rtake MAX_IDS
    · exact Or.inr ⟨hle, hmem⟩
    · rw [decide_eq_false hmem, h.hasId_eq_false] at hid
      exact Or.inl hid.2
  · intro hk
    have hle : xs.length ≤ INT_MAX := by omega
    obtain ⟨ids, hr, h⟩ := RecentIds.holds_empty.exists_recordAll xs (by simpa using hle)
    rw [List.nil_append] at h
    refine ⟨ids, hr, ?_⟩
    by_cases hmem : id ∈ xs.rtake MAX_IDS
    · rw [decide_eq_true hmem]
      exact h.hasId_eq_true.mpr hmem
    · rw [decide_eq_false hmem]
      exact h.hasId_eq_false.mpr ⟨hmem, hk.resolve_right fun hk => hmem hk.2⟩

/-- One identifier recorded `MAX_IDS + 1` times, and a search for another. -/
theorem not_windowSound_on_repeats : ¬ WindowSound (List.replicate (MAX_IDS + 1) 7) 8 := by
  rintro ⟨ids, hr, hid⟩
  have hlen : (List.replicate (MAX_IDS + 1) (7 : Id)).length = MAX_IDS + 1 := List.length_replicate
  obtain ⟨ids', hr', h⟩ := RecentIds.holds_empty.exists_recordAll
    (List.replicate (MAX_IDS + 1) (7 : Id)) (by rw [hlen]; decide)
  rw [hr] at hr'
  cases hr'
  have hmem : (8 : Id) ∉ (List.replicate (MAX_IDS + 1) (7 : Id)).rtake MAX_IDS := by
    intro hmem
    exact absurd (List.eq_of_mem_replicate (List.mem_of_mem_drop hmem)) (by decide)
  rw [decide_eq_false hmem, h.hasId_eq_false, List.nil_append, hlen] at hid
  exact absurd hid.2 (by decide)

/-- **A server's window** is that of the identifiers it has recorded, of its own says and of those
of others. -/
theorem Reachable.exists_holds {addrs : List Sockaddr} {s : ServerState} (h : Reachable addrs s) :
    ∃ xs, s.recentIds.Holds xs := by
  induction h with
  | start unset now => exact ⟨[], RecentIds.holds_empty⟩
  | @step s s' i _ hr ih =>
    obtain ⟨xs, hxs⟩ := ih
    rcases recentIds_of_react hr with ⟨he, -⟩ | ⟨id, -, hrec⟩
    · exact ⟨xs, he ▸ hxs⟩
    · exact ⟨xs ++ [id], hxs.record hrec⟩

end DuckChat
