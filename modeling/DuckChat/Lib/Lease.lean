import Mathlib.Algebra.Order.Group.Int
import Mathlib.Algebra.Order.Group.Unbundled.Basic
import Mathlib.Data.Set.Insert

/-!
# Leases

One side says something again and again; the other side believes it for a while after it has heard
it. Nothing is acknowledged. `S` are the times at which it was said, `T` those at which it was
heard, in any ordered group of times.

Three facts about the two sets keep the belief alive. It is said often: since the first time, the
last time is never more than `gap` ago. It arrives: what was said is heard within `delay`. And
nothing is heard that was not said. Then whenever it has been heard at all, it has been heard no
more than `gap + delay` ago.

## Main definitions

* `Dense`, `Prompt`, `Honest`

## Main results

* `Dense.extend`, `Dense.insert` — time goes by, and it is said again
* `Dense.exists_heard` — what was ever heard was heard lately
-/

set_option autoImplicit false

namespace DuckChat

section Lease

variable {τ : Type} [AddCommGroup τ] [LinearOrder τ] [IsOrderedAddMonoid τ] {S T : Set τ}
  {gap delay now later r s : τ}

/-- Up to now, once it has been said, the last time was never more than `gap` ago. -/
def Dense (gap now : τ) (S : Set τ) : Prop :=
  ∀ x ≤ now, (∃ r ∈ S, r ≤ x) → ∃ r ∈ S, x - gap ≤ r ∧ r ≤ x

/-- What was said at least `delay` ago has been heard since. -/
def Prompt (delay now : τ) (S T : Set τ) : Prop := ∀ r ∈ S, r + delay ≤ now → ∃ s ∈ T, r ≤ s

/-- What is heard was said before. -/
def Honest (S T : Set τ) : Prop := ∀ s ∈ T, ∃ r ∈ S, r ≤ s

omit [IsOrderedAddMonoid τ] in
theorem dense_empty (gap now : τ) : Dense gap now ∅ := fun _ _ ⟨_, hr, _⟩ => absurd hr id

/-- Time goes by, and the last time is not too long ago. -/
theorem Dense.extend (h : Dense gap now S) (hr : r ∈ S) (hle : r ≤ now) (hgap : later - gap ≤ r) :
    Dense gap later S := by
  intro x hx hsaid
  rcases le_or_gt x now with hnow | hnow
  · exact h x hnow hsaid
  · exact ⟨r, hr, (sub_le_sub_right hx gap).trans hgap, hle.trans hnow.le⟩

/-- It is said now. -/
theorem Dense.insert (h : Dense gap now S) (hgap : 0 ≤ gap) : Dense gap now (insert now S) := by
  intro x hx hsaid
  rcases hx.lt_or_eq with hlt | rfl
  · obtain ⟨r, hr, hrx⟩ := hsaid
    have hr : r ∈ S := (Set.mem_insert_iff.mp hr).resolve_left (hrx.trans_lt hlt).ne
    obtain ⟨r', hr', hbetween⟩ := h x hx ⟨r, hr, hrx⟩
    exact ⟨r', Set.mem_insert_of_mem _ hr', hbetween⟩
  · exact ⟨x, Set.mem_insert x S, sub_le_self x hgap, le_refl x⟩

/-- **The lease.** What was ever heard has been heard lately. -/
theorem Dense.exists_heard (h : Dense gap now S) (hp : Prompt delay now S T) (hh : Honest S T)
    (hgap : 0 ≤ gap) (hdelay : 0 ≤ delay) (hs : s ∈ T) :
    ∃ s' ∈ T, now - (gap + delay) ≤ s' := by
  obtain ⟨r, hr, hrs⟩ := hh s hs
  rcases le_or_gt r (now - delay) with hold | hnew
  · -- it was said that long ago, so it was said again in time and has been heard
    obtain ⟨r', hr', hlow, hup⟩ := h (now - delay) (sub_le_self now hdelay) ⟨r, hr, hold⟩
    obtain ⟨s', hs', hle⟩ := hp r' hr' (le_sub_iff_add_le.mp hup)
    refine ⟨s', hs', ?_⟩
    rw [add_comm, ← sub_sub]
    exact hlow.trans hle
  · refine ⟨s, hs, ?_⟩
    calc now - (gap + delay) ≤ now - delay :=
          sub_le_sub_left (le_add_of_nonneg_left hgap) now
      _ ≤ r := hnew.le
      _ ≤ s := hrs

end Lease

end DuckChat
