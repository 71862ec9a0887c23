import DuckChat.Lib.Buffer

/-!
# Arrays of strings in a buffer

A reply ends in an array of fixed-width slots. Each string is copied to the start of its slot, with
a terminator and nothing else, so what the slot holds behind that is whatever was there. The copies
are kept as a list of writes: a write past the end of its block is a fault in C, and a list can be
asked whether there is one.

## Main definitions

* `Write`, `putAll` — stores, and what they make of a buffer
* `slotWrites`, `readSlots` — the strings of an array, written and read
* `StringAt` — a string that stands in a buffer with its terminator

## Main results

* `stringAt_slotWrites` — the copies do not disturb each other
* `readSlots_putAll` — and each is read back
* `inside_slotWrites_iff` — the last copy decides whether the array fits
-/

set_option autoImplicit false

namespace DuckChat

/-- A store of some bytes at an offset. -/
structure Write where
  off : ℕ
  bytes : List UInt8
deriving DecidableEq

/-- The write stays in a block of `n` bytes. -/
def Write.Inside (n : ℕ) (st : Write) : Prop := st.off + st.bytes.length ≤ n

/-- The writes, one after the other. -/
def putAll : List UInt8 → List Write → List UInt8
  | buf, [] => buf
  | buf, st :: sts => putAll (put buf st.off st.bytes) sts

/-- Each string at the start of its slot of `w` bytes, from slot `i` on. -/
def slotWrites (base w : ℕ) : ℕ → List (List UInt8) → List Write
  | _, [] => []
  | i, str :: strs => ⟨base + w * i, str ++ [0]⟩ :: slotWrites base w (i + 1) strs

/-- The strings at the start of the first `n` slots. -/
def readSlots (base w n : ℕ) (buf : List UInt8) : List (List UInt8) :=
  (List.range n).map fun i => cstring (slice buf (base + w * i) w)

/-- The string stands at the offset, and its terminator behind it. -/
def StringAt (buf : List UInt8) (off : ℕ) (str : List UInt8) : Prop :=
  slice buf off (str.length + 1) = str ++ [0]

section Writes

variable {buf : List UInt8} {off i j n w base : ℕ} {sts sts' : List Write} {str : List UInt8}
  {strs : List (List UInt8)}

@[simp] theorem length_putAll : (putAll buf sts).length = buf.length := by
  induction sts generalizing buf with
  | nil => rfl
  | cons st sts ih => rw [putAll, ih, length_put]

theorem putAll_append : putAll buf (sts ++ sts') = putAll (putAll buf sts) sts' := by
  induction sts generalizing buf with
  | nil => rfl
  | cons st sts ih => rw [List.cons_append, putAll, putAll, ih]

/-- What no write touches is still there. -/
theorem slice_putAll_of_disjoint
    (h : ∀ st ∈ sts, st.off + st.bytes.length ≤ off ∨ off + n ≤ st.off) :
    slice (putAll buf sts) off n = slice buf off n := by
  induction sts generalizing buf with
  | nil => rfl
  | cons st sts ih =>
    rw [putAll, ih fun st' hst => h st' (List.mem_cons_of_mem _ hst),
      slice_put_of_disjoint (h st List.mem_cons_self)]

/-- A copy that stays in the buffer. -/
theorem stringAt_put (h : off + str.length + 1 ≤ buf.length) :
    StringAt (put buf off (str ++ [0])) off str := by
  have hlen : (str ++ [0]).length = str.length + 1 := by simp
  rw [StringAt, slice_put_self (by omega), List.take_of_length_le (by omega), hlen, Nat.sub_self,
    slice, List.take_zero, List.append_nil]

theorem StringAt.putAll (h : StringAt buf off str)
    (hd : ∀ st ∈ sts, st.off + st.bytes.length ≤ off ∨ off + str.length + 1 ≤ st.off) :
    StringAt (putAll buf sts) off str :=
  (slice_putAll_of_disjoint hd).trans h

/-- A string does not depend on what comes behind the buffer. -/
theorem StringAt.append (h : StringAt buf off str) (rest : List UInt8) :
    StringAt (buf ++ rest) off str := by
  have hlen : (slice buf off (str.length + 1)).length = str.length + 1 := by
    rw [h, List.length_append, List.length_singleton]
  have hle : off + (str.length + 1) ≤ buf.length := by
    rw [slice, List.length_take, List.length_drop] at hlen
    omega
  rw [StringAt, slice_append_left rest hle, h]

/-- **A string that stands in a field is what is read from it.** -/
theorem StringAt.cstring_slice (h : StringAt buf off str) (hn : 0 ∉ str) (hw : str.length < w) :
    cstring (slice buf off w) = str := by
  obtain ⟨k, hk⟩ : ∃ k, w = str.length + 1 + k := ⟨w - (str.length + 1), by omega⟩
  have hsplit : slice buf off w =
      slice buf off (str.length + 1) ++ ((buf.drop off).drop (str.length + 1)).take k := by
    rw [hk, slice, slice, List.take_add]
  rw [hsplit, h, List.append_assoc]
  exact cstring_append hn _

theorem mem_slotWrites_iff {st : Write} :
    st ∈ slotWrites base w i strs ↔
      ∃ j str, strs[j]? = some str ∧ st = ⟨base + w * (i + j), str ++ [0]⟩ := by
  induction strs generalizing i with
  | nil => simp [slotWrites]
  | cons str strs ih =>
    rw [slotWrites, List.mem_cons, ih]
    constructor
    · rintro (rfl | ⟨j, str', hj, rfl⟩)
      · exact ⟨0, str, rfl, rfl⟩
      · exact ⟨j + 1, str', hj, by rw [Nat.add_right_comm, Nat.add_assoc]⟩
    · rintro ⟨j, str', hj, rfl⟩
      cases j with
      | zero =>
        cases hj
        exact Or.inl rfl
      | succ j => exact Or.inr ⟨j, str', hj, by rw [Nat.add_right_comm, Nat.add_assoc]⟩

/-- The writes to an array start behind what comes before it. -/
theorem le_off_of_mem_slotWrites {st : Write} (h : st ∈ slotWrites base w i strs) :
    base + w * i ≤ st.off := by
  obtain ⟨j, str, -, rfl⟩ := mem_slotWrites_iff.mp h
  exact Nat.add_le_add_left (Nat.mul_le_mul_left _ (Nat.le_add_right _ _)) _

/-- **The copies do not disturb each other**: each string stands in its slot when the last of them
has been made. -/
theorem stringAt_slotWrites (hfit : ∀ str ∈ strs, str.length < w)
    (hin : ∀ st ∈ slotWrites base w i strs, st.Inside buf.length) (h : strs[j]? = some str) :
    StringAt (putAll buf (slotWrites base w i strs)) (base + w * (i + j)) str := by
  induction strs generalizing buf i j with
  | nil => cases h
  | cons str' strs ih =>
    rw [slotWrites, putAll]
    cases j with
    | zero =>
      cases h
      have hhead : base + w * i + (str ++ [0]).length ≤ buf.length := hin _ List.mem_cons_self
      rw [List.length_append, List.length_singleton] at hhead
      have hself : StringAt (put buf (base + w * i) (str ++ [0])) (base + w * i) str :=
        stringAt_put (by omega)
      refine hself.putAll fun st hst => Or.inr ?_
      -- the next slot starts behind the terminator
      have hnext := le_off_of_mem_slotWrites hst
      have hlt := hfit str List.mem_cons_self
      rw [Nat.mul_add, Nat.mul_one] at hnext
      omega
    | succ j =>
      have hslot : i + (j + 1) = i + 1 + j := by omega
      rw [hslot]
      refine ih (fun s hs => hfit s (List.mem_cons_of_mem _ hs)) (fun st hst => ?_) h
      rw [length_put]
      exact hin st (List.mem_cons_of_mem _ hst)

/-- **An array is read as the strings that stand in its slots.** -/
theorem readSlots_eq (hn : ∀ str ∈ strs, 0 ∉ str ∧ str.length < w)
    (h : ∀ j str, strs[j]? = some str → StringAt buf (base + w * j) str) :
    readSlots base w strs.length buf = strs := by
  refine List.ext_getElem? fun j => ?_
  rw [readSlots, List.getElem?_map]
  by_cases hj : j < strs.length
  · have hget : strs[j]? = some strs[j] := List.getElem?_eq_getElem hj
    obtain ⟨hnul, hlt⟩ := hn _ (List.getElem_mem hj)
    rw [List.getElem?_range hj, hget, Option.map_some, (h j _ hget).cstring_slice hnul hlt]
  · have hnone : strs[j]? = none := List.getElem?_eq_none (Nat.le_of_not_lt hj)
    rw [hnone, List.getElem?_eq_none (by rw [List.length_range]; omega), Option.map_none]

/-- What is written to an array leaves the header in front of it alone. -/
theorem slice_putAll_slotWrites (h : off + n ≤ base) :
    slice (putAll buf (sts ++ slotWrites base w 0 strs)) off n = slice (putAll buf sts) off n := by
  rw [putAll_append, slice_putAll_of_disjoint fun st hst => Or.inr ?_]
  have := le_off_of_mem_slotWrites hst
  omega

/-- **What was copied to an array is read from it**, also when more bytes follow. -/
theorem readSlots_putAll (rest : List UInt8) (hn : ∀ str ∈ strs, 0 ∉ str ∧ str.length < w)
    (hin : ∀ st ∈ slotWrites base w 0 strs, st.Inside buf.length) :
    readSlots base w strs.length (putAll buf (sts ++ slotWrites base w 0 strs) ++ rest) = strs := by
  refine readSlots_eq hn fun j str hj => StringAt.append ?_ rest
  rw [putAll_append]
  have hin' : ∀ st ∈ slotWrites base w 0 strs, st.Inside (putAll buf sts).length := by
    rwa [length_putAll]
  have hat := stringAt_slotWrites (fun s hs => (hn s hs).2) hin' hj
  rwa [Nat.zero_add] at hat

/-- **The last copy decides** whether the array stays in its block. -/
theorem inside_slotWrites_iff (hfit : ∀ str ∈ strs, str.length < w) :
    (∀ st ∈ slotWrites base w i strs, st.Inside n) ↔
      ∀ str ∈ strs.getLast?, base + w * (i + (strs.length - 1)) + str.length + 1 ≤ n := by
  induction strs generalizing i with
  | nil => simp [slotWrites]
  | cons str strs ih =>
    have hhead : Write.Inside n ⟨base + w * i, str ++ [0]⟩ ↔ base + w * i + str.length + 1 ≤ n := by
      rw [Write.Inside, List.length_append, List.length_singleton, Nat.add_assoc _ _ 1]
    rw [slotWrites, List.forall_mem_cons, hhead,
      ih fun s hs => hfit s (List.mem_cons_of_mem _ hs)]
    cases strs with
    | nil => simp
    | cons str' strs =>
      have hslot : i + 1 + ((str' :: strs).length - 1) =
          i + ((str :: str' :: strs).length - 1) := by
        simp only [List.length_cons]
        omega
      rw [hslot, List.getLast?_cons_cons]
      refine and_iff_right_of_imp fun h => ?_
      -- the first copy ends in its slot, and the last one is made in a later slot
      obtain ⟨last, hlast⟩ : ∃ last, (str' :: strs).getLast? = some last :=
        ⟨_, List.getLast?_eq_some_getLast (List.cons_ne_nil _ _)⟩
      have hle := h last hlast
      have hlt := hfit str List.mem_cons_self
      have hlen : i + ((str :: str' :: strs).length - 1) = i + 1 + strs.length := by
        simp only [List.length_cons]
        omega
      rw [hlen, Nat.mul_add, Nat.mul_add, Nat.mul_one] at hle
      omega

end Writes

end DuckChat
