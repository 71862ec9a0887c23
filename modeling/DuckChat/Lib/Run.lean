import Mathlib.Data.List.Basic
import Mathlib.Tactic.Common

/-!
# Runs of a partial step function

A system is a step function `σ → α → Option σ` (`none` for an action that is not enabled) together
with a side condition `ok` on the actions under consideration. Every statement about "every run"
goes through `Run.invariant` or `Run.history`, so the induction over runs is done here once.

## Main definitions

* `Run step ok s as t` — the actions `as` lead from `s` to `t`
* `execute` — the same as a function

## Main results

* `Run.invariant` — what every step preserves, every run preserves
* `Run.history` — the same for what depends on the actions so far
* `run_of_execute` — concrete runs by evaluation
* `Run.length_add_le` — a measure that drops at every step bounds the length of a run
* `Run.filterMap` — a part of a system, with the actions that touch it
* `exists_run_replicate` — an action that makes a measure drop, until something holds
-/

set_option autoImplicit false

namespace DuckChat

variable {σ α : Type}

/-- The actions `as`, each allowed by `ok` where it is taken, lead from one state to another. -/
inductive Run (step : σ → α → Option σ) (ok : σ → α → Prop) : σ → List α → σ → Prop where
  | nil (s : σ) : Run step ok s [] s
  | cons {s t u : σ} {a : α} {as : List α} :
      ok s a → step s a = some t → Run step ok t as u → Run step ok s (a :: as) u

section

variable {step : σ → α → Option σ} {ok ok' : σ → α → Prop} {s t u : σ} {as bs : List α}

/-- **Invariants.** What every allowed step preserves, every run preserves. -/
theorem Run.invariant {P : σ → Prop} (h : Run step ok s as t)
    (hstep : ∀ s a t, P s → ok s a → step s a = some t → P t) (hs : P s) : P t := by
  induction h with
  | nil s => exact hs
  | cons hok hst _ ih => exact ih (hstep _ _ _ hs hok hst)

/-- **Histories.** An invariant that relates the state to the actions that led to it, the last one
at the end of the list. -/
theorem Run.history {P : List α → σ → Prop} (h : Run step ok s as t)
    (hstep : ∀ bs s a t, P bs s → ok s a → step s a = some t → P (bs ++ [a]) t) (hs : P [] s) :
    P as t := by
  suffices hall : ∀ bs, P bs s → P (bs ++ as) t from hall [] hs
  clear hs
  induction h with
  | nil s =>
    intro bs hb
    rwa [List.append_nil]
  | @cons s u t a as hok hst _ ih =>
    intro bs hb
    have := ih (bs ++ [a]) (hstep _ _ _ _ hb hok hst)
    rwa [List.append_assoc] at this

/-- A run of the stronger condition is a run of the weaker one. -/
theorem Run.mono (h : Run step ok s as t) (hok : ∀ s a, ok s a → ok' s a) :
    Run step ok' s as t := by
  induction h with
  | nil s => exact .nil s
  | cons ha hst _ ih => exact .cons (hok _ _ ha) hst ih

/-- A condition on the actions alone. -/
theorem Run.restrict {P : α → Prop} (h : Run step ok s as t) (hP : ∀ a ∈ as, P a) :
    Run step (fun s a => ok s a ∧ P a) s as t := by
  induction h with
  | nil s => exact .nil s
  | cons ha hst _ ih =>
    obtain ⟨hhead, htail⟩ := List.forall_mem_cons.mp hP
    exact .cons ⟨ha, hhead⟩ hst (ih htail)

theorem Run.append (h₁ : Run step ok s as t) (h₂ : Run step ok t bs u) :
    Run step ok s (as ++ bs) u := by
  induction h₁ with
  | nil s => exact h₂
  | cons ha hst _ ih => exact .cons ha hst (ih h₂)

/-- **Parts.** If every allowed action of a system is one of a part or leaves the part alone, then
its runs are runs of the part. -/
theorem Run.filterMap {ρ β : Type} {part : ρ → β → Option ρ} (f : σ → ρ) (g : α → Option β)
    (h : Run step ok s as t)
    (hstep : ∀ s a t, ok s a → step s a = some t →
      (g a = none ∧ f t = f s) ∨ ∃ b, g a = some b ∧ part (f s) b = some (f t)) :
    Run part (fun _ _ => True) (f s) (as.filterMap g) (f t) := by
  induction h with
  | nil s => exact .nil (f s)
  | cons hok hst _ ih =>
    rcases hstep _ _ _ hok hst with ⟨ha, hf⟩ | ⟨b, ha, hb⟩
    · rw [List.filterMap_cons_none ha, ← hf]
      exact ih
    · rw [List.filterMap_cons_some ha]
      exact .cons trivial hb ih

/-- **Termination by a measure.** If every allowed step makes the measure smaller, then runs are no
longer than the measure they start with. -/
theorem Run.length_add_le {m : σ → ℕ} (h : Run step ok s as t)
    (hm : ∀ s a t, ok s a → step s a = some t → m t < m s) : as.length + m t ≤ m s := by
  induction h with
  | nil s => simp
  | cons ha hst _ ih =>
    have := hm _ _ _ ha hst
    rw [List.length_cons]
    omega

/-- **Progress by a measure.** If one action is enabled wherever `Q` does not hold yet, keeps an
invariant and makes the measure smaller, then it leads to `Q`. -/
theorem exists_run_replicate (a : α) {P Q : σ → Prop} {m : σ → ℕ}
    (h : ∀ s, P s → Q s ∨ ∃ t, step s a = some t ∧ P t ∧ m t < m s) (hs : P s) :
    ∃ k t, Run step (fun _ b => b = a) s (List.replicate k a) t ∧ P t ∧ Q t := by
  generalize hn : m s = n
  induction n using Nat.strongRecOn generalizing s with
  | ind n ih =>
    rcases h s hs with hQ | ⟨t, hst, ht, hlt⟩
    · exact ⟨0, s, .nil s, hs, hQ⟩
    · obtain ⟨k, u, hrun, hu, hQ⟩ := ih (m t) (hn ▸ hlt) ht rfl
      exact ⟨k + 1, u, .cons rfl hst hrun, hu, hQ⟩

/-- Runs by evaluation. -/
def execute (step : σ → α → Option σ) (ok : σ → α → Prop) [∀ s a, Decidable (ok s a)] :
    σ → List α → Option σ
  | s, [] => some s
  | s, a :: as =>
      if ok s a then
        match step s a with
        | some t => execute step ok t as
        | none => none
      else none

theorem run_of_execute [∀ x a, Decidable (ok x a)] :
    ∀ {as : List α} {s : σ}, execute step ok s as = some t → Run step ok s as t := by
  intro as
  induction as with
  | nil =>
    intro s h
    cases h
    exact .nil _
  | cons a as ih =>
    intro s h
    rw [execute] at h
    split at h
    · next hok =>
      split at h
      · next t' hst => exact .cons hok hst (ih h)
      · cases h
    · cases h

/-- A run to a state with a property, by evaluation of both. -/
theorem exists_run_of_execute [∀ x a, Decidable (ok x a)] {p : σ → Bool}
    (h : (execute step ok s as).any p = true) : ∃ t, Run step ok s as t ∧ p t = true := by
  cases he : execute step ok s as with
  | none => rw [he] at h; cases h
  | some t =>
    rw [he] at h
    exact ⟨t, run_of_execute he, h⟩

end

end DuckChat
