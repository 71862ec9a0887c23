import Mathlib.Data.Int.Order.Basic
import Mathlib.Data.List.Nodup
import Mathlib.Tactic.Common

/-!
# Arrays with a separate signed counter

The program keeps its data in fixed arrays `slots[cap]` next to an `int n`. A loop reads the slots
`0, …, n - 1`; an append stores at index `n` and increments; a removal shifts the slots after the
removed one down and decrements, *whether or not anything was found*. The counter can therefore
become negative, and an append is then a store in front of the array.

Only the live prefix is observable: a slot at or past the counter is stored to before it is read
again. A table is that prefix together with the counter.

## Main definitions

* `Table α cap` — live prefix, counter, and the invariant that ties them together
* `Table.push` — the append, refusing a store outside the array
* `shiftLoop`, `Table.remove` — the flag-driven removal loop
* `scan` — a reading loop that may fault before it finds its entry

## Main results

* `shiftLoop_eraseP` — the removal loop deletes the first hit
* `Table.live_remove_of_mem`, `Table.live_remove_of_forall_not` — the two outcomes of a removal
* `scan_eq_find?` — a scan over entries that can be read is `List.find?`
-/

set_option autoImplicit false

namespace DuckChat

/-- How an index misses the array. -/
inductive OutOfRange where
  | below
  | above
deriving DecidableEq, Repr

/-- An array of `cap` slots with its counter: the elements in slots `0, …, count - 1`. -/
structure Table (α : Type) (cap : ℕ) where
  live : List α
  count : ℤ
  length_live : live.length = count.toNat
  count_le : count ≤ cap
deriving DecidableEq

/-! ### Removal loops -/

/-- The loop `for (i = …) if (move) list[i-1] = list[i]; else if (hit i) move = 1;` on the slots
still to be visited: until the flag is set an element stays, the first hit is passed over, and the
rest moves down by one. -/
def shiftLoop {α : Type} (hit : ℕ → α → Bool) : ℕ → Bool → List α → List α
  | _, _, [] => []
  | i, true, x :: xs => x :: shiftLoop hit (i + 1) true xs
  | i, false, x :: xs =>
      if hit i x then shiftLoop hit (i + 1) true xs else x :: shiftLoop hit (i + 1) false xs

section Loops

variable {α : Type} (hit : ℕ → α → Bool)

theorem shiftLoop_true (i : ℕ) (xs : List α) : shiftLoop hit i true xs = xs := by
  induction xs generalizing i with
  | nil => rfl
  | cons x xs ih => rw [shiftLoop, ih]

/-- **The loop deletes the first hit** when hits do not depend on the position. -/
theorem shiftLoop_eraseP (p : α → Bool) (i : ℕ) (xs : List α) :
    shiftLoop (fun _ => p) i false xs = xs.eraseP p := by
  induction xs generalizing i with
  | nil => rfl
  | cons x xs ih =>
    rw [shiftLoop]
    cases hx : p x with
    | true => rw [if_pos rfl, shiftLoop_true, List.eraseP_cons_of_pos hx]
    | false => rw [if_neg (by simp), ih, List.eraseP_cons_of_neg (by simp [hx])]

/-- At most one element is lost. -/
theorem length_le_shiftLoop (i : ℕ) (xs : List α) :
    xs.length ≤ (shiftLoop hit i false xs).length + 1 := by
  induction xs generalizing i with
  | nil => simp
  | cons x xs ih =>
    rw [shiftLoop]
    split
    · rw [shiftLoop_true]
      exact Nat.le_refl _
    · have := ih (i + 1)
      simp only [List.length_cons]
      omega

/-- A reading loop: the first element on which the test succeeds. The test may fault, and the loop
never looks past its first success. -/
def scan {ε : Type} (p : α → Except ε Bool) : List α → Except ε (Option α)
  | [] => .ok none
  | x :: xs =>
      match p x with
      | .error e => .error e
      | .ok true => .ok (some x)
      | .ok false => scan p xs

/-- **A scan over readable entries is a search.** -/
theorem scan_eq_find? {ε : Type} {p : α → Except ε Bool} {q : α → Bool} {xs : List α}
    (h : ∀ x ∈ xs, p x = .ok (q x)) : scan p xs = .ok (xs.find? q) := by
  induction xs with
  | nil => rfl
  | cons x xs ih =>
    have ih := ih fun y hy => h y (List.mem_cons_of_mem _ hy)
    rw [scan, h x List.mem_cons_self]
    cases hq : q x with
    | true => simp [List.find?_cons_of_pos hq]
    | false => simpa [List.find?_cons_of_neg, hq] using ih

end Loops

namespace Table

variable {α : Type} {cap : ℕ}

@[ext] theorem ext {s t : Table α cap} (hl : s.live = t.live) (hc : s.count = t.count) : s = t := by
  cases s
  cases t
  simp_all

/-- A table of the given elements. -/
def ofList (xs : List α) (h : xs.length ≤ cap) : Table α cap where
  live := xs
  count := xs.length
  length_live := by simp
  count_le := by exact_mod_cast h

/-- The table with nothing in it. -/
def empty : Table α cap := ofList [] (Nat.zero_le _)

@[simp] theorem live_ofList (xs : List α) (h : xs.length ≤ cap) : (ofList xs h).live = xs := rfl

/-- `slots[n++] = x`. -/
def push (t : Table α cap) (x : α) : Except OutOfRange (Table α cap) :=
  if h0 : t.count < 0 then .error .below
  else if h1 : t.count < cap then
    .ok { live := t.live ++ [x]
          count := t.count + 1
          length_live := by
            have := t.length_live
            simp only [List.length_append, List.length_cons, List.length_nil]
            omega
          count_le := by omega }
  else .error .above

/-- **The append rule.** -/
theorem push_eq_ok_iff {t t' : Table α cap} {x : α} :
    t.push x = .ok t' ↔
      0 ≤ t.count ∧ t.count < cap ∧ t'.live = t.live ++ [x] ∧ t'.count = t.count + 1 := by
  unfold push
  split
  · constructor
    · intro h; cases h
    · rintro ⟨h, -⟩; omega
  · split
    · constructor
      · intro h
        cases h
        exact ⟨by omega, by omega, rfl, rfl⟩
      · rintro ⟨-, -, hl, hc⟩
        exact congrArg Except.ok (ext hl.symm hc.symm)
    · constructor
      · intro h; cases h
      · rintro ⟨-, h, -⟩; omega

theorem push_error {t : Table α cap} {x : α} {e : OutOfRange} (h : t.push x = .error e) :
    (e = .below ∧ t.count < 0) ∨ (e = .above ∧ t.count = cap) := by
  have hle := t.count_le
  unfold push at h
  split at h
  · cases h; exact Or.inl ⟨rfl, by assumption⟩
  · split at h
    · cases h
    · cases h; exact Or.inr ⟨rfl, by omega⟩

/-- Lower the counter to `n`, leaving the slots as they are. -/
def truncate (t : Table α cap) (n : ℤ) : Table α cap where
  live := t.live.take n.toNat
  count := min n t.count
  length_live := by
    rw [List.length_take, t.length_live]
    omega
  count_le := by have := t.count_le; omega

/-- Overwrite the live slots in place. A list of another length is no such update and is ignored. -/
def overwrite (t : Table α cap) (xs : List α) : Table α cap :=
  if h : xs.length = t.live.length then
    { live := xs
      count := t.count
      length_live := h.trans t.length_live
      count_le := t.count_le }
  else t

theorem live_overwrite {t : Table α cap} {xs : List α} (h : xs.length = t.live.length) :
    (t.overwrite xs).live = xs := by
  rw [overwrite, dif_pos h]

@[simp] theorem count_overwrite (t : Table α cap) (xs : List α) :
    (t.overwrite xs).count = t.count := by
  unfold overwrite
  split <;> rfl

/-- The removal: the shifting loop over the live slots, then `n--`. -/
def remove (hit : ℕ → α → Bool) (t : Table α cap) : Table α cap where
  live := (shiftLoop hit 0 false t.live).take (t.count - 1).toNat
  count := t.count - 1
  length_live := by
    have h := length_le_shiftLoop hit 0 t.live
    rw [t.length_live] at h
    rw [List.length_take]
    omega
  count_le := by have := t.count_le; omega

@[simp] theorem count_remove (hit : ℕ → α → Bool) (t : Table α cap) :
    (t.remove hit).count = t.count - 1 := rfl

theorem live_remove (p : α → Bool) (t : Table α cap) :
    (t.remove fun _ => p).live = (t.live.eraseP p).take (t.count - 1).toNat := by
  change (shiftLoop (fun _ => p) 0 false t.live).take (t.count - 1).toNat = _
  rw [shiftLoop_eraseP]

theorem count_eq_length {t : Table α cap} (h : 0 ≤ t.count) : t.count = t.live.length := by
  rw [t.length_live]
  omega

theorem count_pos_of_mem {t : Table α cap} {x : α} (h : x ∈ t.live) : 0 < t.count := by
  have hl := List.length_pos_of_mem h
  rw [t.length_live] at hl
  omega

/-- **A removal that finds its element deletes it.** -/
theorem live_remove_of_mem {t : Table α cap} {p : α → Bool} {x : α} (hx : x ∈ t.live)
    (hp : p x = true) : (t.remove fun _ => p).live = t.live.eraseP p := by
  have hlen : (t.live.eraseP p).length + 1 = t.live.length := by
    have := List.length_eraseP_of_mem hx hp
    have := List.length_pos_of_mem hx
    omega
  have hc := count_eq_length (Int.le_of_lt (count_pos_of_mem hx))
  rw [live_remove]
  exact List.take_of_length_le (by omega)

/-- **A removal that finds nothing drops the last element.** -/
theorem live_remove_of_forall_not {t : Table α cap} {p : α → Bool}
    (h : ∀ x ∈ t.live, p x = false) : (t.remove fun _ => p).live = t.live.dropLast := by
  rw [live_remove, List.eraseP_of_forall_not (by simpa using h), List.dropLast_eq_take,
    t.length_live]
  congr 1
  omega

/-- Removal never brings an element in. -/
theorem mem_of_mem_live_remove {t : Table α cap} {p : α → Bool} {x : α}
    (h : x ∈ (t.remove fun _ => p).live) : x ∈ t.live := by
  rw [live_remove] at h
  exact List.mem_of_mem_eraseP (List.mem_of_mem_take h)

end Table

end DuckChat
