import Mathlib.Data.List.Nodup
import Mathlib.Tactic.Common

/-!
# What is new in a list

Elements arrive one after the other at something that keeps those it has not seen. What it adds to
what it knew are the new elements, each once, in the order of their first arrival; which elements
they are does not depend on the order of arrival.

## Main definitions

* `fresh known xs` — the elements of `xs` that are not known, each once

## Main results

* `fresh_append` — arriving in two parts
* `mem_fresh`, `nodup_fresh`, `fresh_perm` — the new elements do not depend on the order
-/

set_option autoImplicit false

namespace DuckChat

variable {α : Type} [DecidableEq α] {known xs ys : List α} {x : α}

/-- The elements that are not known, each once, in the order of their first arrival. -/
def fresh (known : List α) : List α → List α
  | [] => []
  | x :: xs => if x ∈ known then fresh known xs else x :: fresh (known ++ [x]) xs

@[simp] theorem fresh_nil (known : List α) : fresh known [] = [] := rfl

theorem fresh_singleton_of_mem (h : x ∈ known) : fresh known [x] = [] := by
  rw [fresh, if_pos h, fresh_nil]

theorem fresh_singleton_of_not_mem (h : x ∉ known) : fresh known [x] = [x] := by
  rw [fresh, if_neg h, fresh_nil]

/-- What arrives later is new to what was known and to what arrived before. -/
theorem fresh_append (known xs ys : List α) :
    fresh known (xs ++ ys) = fresh known xs ++ fresh (known ++ fresh known xs) ys := by
  induction xs generalizing known with
  | nil => rw [List.nil_append, fresh_nil, List.nil_append, List.append_nil]
  | cons x xs ih =>
    rw [List.cons_append, fresh, fresh]
    by_cases hx : x ∈ known
    · rw [if_pos hx, if_pos hx, ih]
    · rw [if_neg hx, if_neg hx, ih, List.cons_append, List.append_assoc, List.singleton_append]

/-- The new elements are those that arrive and were not known. -/
theorem mem_fresh : x ∈ fresh known xs ↔ x ∈ xs ∧ x ∉ known := by
  induction xs generalizing known with
  | nil => simp
  | cons y ys ih =>
    rw [fresh]
    by_cases hy : y ∈ known
    · rw [if_pos hy, ih, List.mem_cons]
      constructor
      · rintro ⟨hx, hk⟩
        exact ⟨Or.inr hx, hk⟩
      · rintro ⟨rfl | hx, hk⟩
        · exact absurd hy hk
        · exact ⟨hx, hk⟩
    · rw [if_neg hy, List.mem_cons, ih, List.mem_cons, List.mem_append, List.mem_singleton]
      constructor
      · rintro (rfl | ⟨hx, hk⟩)
        · exact ⟨Or.inl rfl, hy⟩
        · exact ⟨Or.inr hx, fun h => hk (Or.inl h)⟩
      · rintro ⟨rfl | hx, hk⟩
        · exact Or.inl rfl
        · by_cases hxy : x = y
          · exact Or.inl hxy
          · exact Or.inr ⟨hx, fun h => h.elim hk hxy⟩

theorem mem_append_fresh : x ∈ known ++ fresh known xs ↔ x ∈ known ∨ x ∈ xs := by
  rw [List.mem_append, mem_fresh]
  tauto

theorem nodup_fresh (known xs : List α) : (fresh known xs).Nodup := by
  induction xs generalizing known with
  | nil => exact List.nodup_nil
  | cons x xs ih =>
    rw [fresh]
    split
    · exact ih known
    · refine List.nodup_cons.mpr ⟨fun h => ?_, ih _⟩
      exact (mem_fresh.mp h).2 (List.mem_append_right _ (List.mem_singleton_self x))

/-- **The order of arrival does not matter**, nor how often something arrives. -/
theorem fresh_perm (known : List α) (h : ∀ x, x ∈ xs ↔ x ∈ ys) :
    (fresh known xs).Perm (fresh known ys) := by
  refine (List.perm_ext_iff_of_nodup (nodup_fresh _ _) (nodup_fresh _ _)).mpr fun x => ?_
  rw [mem_fresh, mem_fresh, h]

end DuckChat
