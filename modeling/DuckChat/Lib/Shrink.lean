import Mathlib.Data.List.Basic
import Mathlib.Tactic.Common

/-!
# Loops that lower their own bound

`for (j = a; j < m; j++) if (hit j) m--;` visits one index at each turn and gives up the last one at
each hit, so it stops about half way through a stretch of hits. Where it stops is determined by the
hits it has met: the number of them is the number of indices given up.

## Main definitions

* `shrink` — the bound when the loop ends
* `hits` — how many hits there are in a range of indices
* `Ends` — a bound at which the loop can end

## Main results

* `ends_shrink`, `Ends.unique` — the loop ends at the one bound at which it can end
-/

set_option autoImplicit false

namespace DuckChat

/-- The loop from index `j` with bound `m`, for at most `n` turns. -/
def shrink (hit : ℕ → Bool) : ℕ → ℕ → ℕ → ℕ
  | 0, _, m => m
  | n + 1, j, m =>
      if j < m then shrink hit n (j + 1) (if hit j then m - 1 else m) else m

/-- The number of hits among the indices from `a` up to `b`. -/
def hits (hit : ℕ → Bool) (a b : ℕ) : ℕ := (List.range' a (b - a)).countP hit

/-- The loop from `a` with bound `m` can end at `x`: the hits in front of `x` have lowered the bound
to `x`, or to `x + 1` and then `x`, the last index, is a hit itself. -/
def Ends (hit : ℕ → Bool) (a m x : ℕ) : Prop :=
  a ≤ x ∧ (x + hits hit a x = m ∨ x + hits hit a x + 1 = m ∧ hit x = true)

section Shrink

variable {hit : ℕ → Bool} {a b m n x y : ℕ}

@[simp] theorem hits_self : hits hit a a = 0 := by
  rw [hits, Nat.sub_self]
  rfl

theorem hits_succ_left (h : a < b) :
    hits hit a b = hits hit (a + 1) b + if hit a = true then 1 else 0 := by
  have hlen : b - a = b - (a + 1) + 1 := by omega
  rw [hits, hlen, List.range'_succ, List.countP_cons, hits]

/-- Hits in front of an index, the index itself, and more behind it. -/
theorem hits_add_le (hax : a ≤ x) (hxy : x < y) :
    hits hit a x + (if hit x = true then 1 else 0) ≤ hits hit a y := by
  have hlen : y - a = x - a + (y - x) := by omega
  have hsplit : hits hit a y = hits hit a x + hits hit x y := by
    have hx : a + (x - a) = x := by omega
    rw [hits, hlen, ← List.range'_append_1, List.countP_append, hx, hits, hits]
  rw [hsplit, hits_succ_left hxy]
  omega

theorem hits_eq_zero (h : ∀ i, a ≤ i → i < b → hit i = false) : hits hit a b = 0 := by
  rw [hits, List.countP_eq_zero]
  intro i hi
  rw [List.mem_range'_1] at hi
  rw [h i hi.1 (by omega)]
  exact Bool.false_ne_true

/-- **Where the loop ends.** -/
theorem ends_shrink (h : a ≤ m) (hn : m ≤ a + n) : Ends hit a m (shrink hit n a m) := by
  induction n generalizing a m with
  | zero =>
    have hm : m = a := by omega
    rw [shrink, hm]
    exact ⟨Nat.le_refl _, Or.inl (by rw [hits_self, Nat.add_zero])⟩
  | succ n ih =>
    rw [shrink]
    split
    · next hlt =>
      by_cases hhit : hit a = true
      · rw [if_pos hhit]
        rcases Nat.lt_or_ge (a + 1) m with hlt' | hge
        · obtain ⟨hle, hk⟩ := ih (a := a + 1) (m := m - 1) (by omega) (by omega)
          refine ⟨by omega, ?_⟩
          rw [hits_succ_left (by omega), if_pos hhit]
          exact hk.imp (fun hk => by omega) fun hk => ⟨by omega, hk.2⟩
        · -- the index is the last one: it gives itself up, and the loop is over
          have hend : shrink hit n (a + 1) (m - 1) = a := by
            have hm : m - 1 = a := by omega
            rw [hm]
            cases n with
            | zero => rfl
            | succ n => rw [shrink, if_neg (by omega)]
          rw [hend]
          exact ⟨Nat.le_refl _, Or.inr ⟨by rw [hits_self]; omega, hhit⟩⟩
      · rw [if_neg hhit]
        obtain ⟨hle, hk⟩ := ih (a := a + 1) (m := m) (by omega) (by omega)
        refine ⟨by omega, ?_⟩
        rwa [hits_succ_left (by omega), if_neg hhit, Nat.add_zero]
    · next hlt =>
      have hm : m = a := by omega
      rw [hm]
      exact ⟨Nat.le_refl _, Or.inl (by rw [hits_self, Nat.add_zero])⟩

theorem Ends.le_bound (h : Ends hit a m x) : x ≤ m := by
  rcases h.2 with h | ⟨h, -⟩
  · omega
  · omega

/-- A loop cannot end at two bounds. -/
theorem Ends.le (hx : Ends hit a m x) (hy : Ends hit a m y) : y ≤ x := by
  refine Nat.le_of_not_lt fun hlt => ?_
  obtain ⟨hax, hkx⟩ := hx
  obtain ⟨-, hky⟩ := hy
  have hle : hits hit a x + _ ≤ hits hit a y := hits_add_le hax hlt
  rcases hkx with hkx | ⟨hkx, hhit⟩
  · omega
  · rw [if_pos hhit] at hle
    omega

theorem Ends.unique (hx : Ends hit a m x) (hy : Ends hit a m y) : x = y :=
  Nat.le_antisymm (hy.le hx) (hx.le hy)

end Shrink

end DuckChat
