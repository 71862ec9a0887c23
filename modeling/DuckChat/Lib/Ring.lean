import Mathlib.Data.List.DropRight
import Mathlib.Tactic.Common

/-!
# Ring buffers

An array of `cap` slots that is filled from the front and, once it is full, overwritten in turn:
element number `n` goes to slot `n % cap`. The slots then hold the last elements, in the order of
their numbers modulo `cap`, which is all that a search through the slots needs.

## Main definitions

* `ringPut` — the store of element number `n`
* `Ring cap xs slots` — the slots after the elements `xs` were stored

## Main results

* `Ring.put` — a store keeps the slots in order
* `Ring.mem_iff` — what is in the slots is what is among the last `cap` elements
-/

set_option autoImplicit false

namespace DuckChat

variable {α : Type}

/-- Store element number `n`: the slot `n % cap` is a new one as long as `n < cap`. -/
def ringPut (cap n : ℕ) (slots : List α) (x : α) : List α :=
  if n < cap then slots ++ [x] else slots.set (n % cap) x

/-- The slots hold the last elements, each in the slot of its number. -/
structure Ring (cap : ℕ) (xs slots : List α) : Prop where
  length_slots : slots.length = min xs.length cap
  place : ∀ j, j < xs.length → xs.length ≤ j + cap → slots[j % cap]? = xs[j]?

section Ring

variable {cap n : ℕ} {xs slots : List α} {x : α}

theorem length_ringPut (h : slots.length = min n cap) :
    (ringPut cap n slots x).length = min (n + 1) cap := by
  rw [ringPut]
  split
  · rw [List.length_append, List.length_singleton]
    omega
  · rw [List.length_set]
    omega

theorem Ring.nil (cap : ℕ) : Ring cap ([] : List α) [] :=
  ⟨by simp, fun _ hj => absurd hj (Nat.not_lt_zero _)⟩

/-- The new element is in its slot. -/
theorem getElem?_ringPut_self (h0 : 0 < cap) (h : slots.length = min n cap) :
    (ringPut cap n slots x)[n % cap]? = some x := by
  rw [ringPut]
  split
  · next hlt =>
    have hlen : slots.length = n := by omega
    rw [Nat.mod_eq_of_lt hlt, List.getElem?_append_right (Nat.le_of_eq hlen), hlen, Nat.sub_self]
    rfl
  · have hmod : n % cap < slots.length := by
      have := Nat.mod_lt n h0
      omega
    rw [List.getElem?_set_self hmod]

/-- The others keep theirs. -/
theorem getElem?_ringPut_of_ne {k : ℕ} (hk : k < slots.length) (hne : n % cap ≠ k) :
    (ringPut cap n slots x)[k]? = slots[k]? := by
  rw [ringPut]
  split
  · rw [List.getElem?_append_left hk]
  · rw [List.getElem?_set_ne hne]

/-- Two numbers less than `cap` apart have different slots. -/
theorem mod_ne_of_lt_add {j n cap : ℕ} (hj : j < n) (hn : n < j + cap) : n % cap ≠ j % cap := by
  intro heq
  have hdvd : cap ∣ n - j := Nat.dvd_of_mod_eq_zero (Nat.sub_mod_eq_zero_of_mod_eq heq)
  have := Nat.le_of_dvd (by omega) hdvd
  omega

/-- **A store keeps the slots in order.** -/
theorem Ring.put (h : Ring cap xs slots) (h0 : 0 < cap) (x : α) :
    Ring cap (xs ++ [x]) (ringPut cap xs.length slots x) := by
  refine ⟨?_, fun j hj hjc => ?_⟩
  · rw [length_ringPut h.length_slots, List.length_append, List.length_singleton]
  rw [List.length_append, List.length_singleton] at hj hjc
  rcases Nat.lt_succ_iff_lt_or_eq.mp hj with hlt | rfl
  · have hmod : j % cap < slots.length := by
      have := Nat.mod_lt j h0
      have := Nat.mod_le j cap
      rw [h.length_slots]
      omega
    rw [List.getElem?_append_left hlt, ← h.place j hlt (by omega),
      getElem?_ringPut_of_ne hmod (mod_ne_of_lt_add hlt (by omega))]
  · rw [getElem?_ringPut_self h0 h.length_slots, List.getElem?_append_right (Nat.le_refl _),
      Nat.sub_self]
    rfl

/-- Every slot is that of one of the last elements. -/
theorem Ring.exists_place (h : Ring cap xs slots) {k : ℕ} (hk : k < slots.length) :
    ∃ j, j < xs.length ∧ xs.length ≤ j + cap ∧ j % cap = k := by
  rw [h.length_slots] at hk
  have hmod : (xs.length - 1 - k) % cap < cap := Nat.mod_lt _ (by omega)
  have hle := Nat.mod_le (xs.length - 1 - k) cap
  refine ⟨xs.length - 1 - (xs.length - 1 - k) % cap, by omega, by omega, ?_⟩
  have hsub : xs.length - 1 - (xs.length - 1 - k) % cap =
      k + cap * ((xs.length - 1 - k) / cap) := by
    have := Nat.div_add_mod (xs.length - 1 - k) cap
    omega
  rw [hsub, Nat.add_mul_mod_self_left, Nat.mod_eq_of_lt (by omega)]

/-- **The slots hold the last elements** and nothing else. -/
theorem Ring.mem_iff (h : Ring cap xs slots) : x ∈ slots ↔ x ∈ xs.rtake cap := by
  rw [List.rtake, List.mem_iff_getElem?, List.mem_iff_getElem?]
  simp only [List.getElem?_drop]
  constructor
  · rintro ⟨k, hk⟩
    obtain ⟨j, hj, hjc, hjk⟩ := h.exists_place (List.getElem?_eq_some_iff.mp hk).1
    have hidx : xs.length - cap + (j - (xs.length - cap)) = j := by omega
    exact ⟨j - (xs.length - cap), by rw [hidx, ← h.place j hj hjc, hjk, hk]⟩
  · rintro ⟨i, hi⟩
    have hlt := (List.getElem?_eq_some_iff.mp hi).1
    exact ⟨(xs.length - cap + i) % cap, by rw [h.place _ hlt (by omega), hi]⟩

end Ring

end DuckChat
