import Mathlib.Logic.Function.Basic
import Mathlib.Tactic.Common

/-!
# Monitors

A mutex and a condition variable. A thread that waits gives the mutex back and sleeps in one step;
it has to be woken up and to find the mutex free before it goes on. Waking up may happen without a
reason. A broadcast wakes those who sleep at that moment, and nobody who is only about to.

## Main definitions

* `Monitor`, with `lock`, `unlock`, `wait`, `wake`, `broadcast`

## Main results

* `Monitor.lock_eq_some_iff` — who gets the mutex
-/

set_option autoImplicit false

namespace DuckChat

variable {θ : Type}

/-- Who holds the mutex, and who sleeps on the condition variable. -/
structure Monitor (θ : Type) where
  holder : Option θ
  asleep : θ → Bool

namespace Monitor

variable {m m' : Monitor θ} {t u : θ}

/-- Nobody holds the mutex, and nobody sleeps. -/
def free : Monitor θ := ⟨none, fun _ => false⟩

/-- Taking the mutex, also on the way out of a wait. It is not enabled while the thread sleeps or
while the mutex is taken. -/
def lock (m : Monitor θ) (t : θ) : Option (Monitor θ) :=
  match m.holder with
  | none => if m.asleep t then none else some { m with holder := some t }
  | some _ => none

def unlock (m : Monitor θ) : Monitor θ := { m with holder := none }

/-- Giving the mutex back and falling asleep, in one step. -/
def wait [DecidableEq θ] (m : Monitor θ) (t : θ) : Monitor θ :=
  ⟨none, Function.update m.asleep t true⟩

/-- One thread wakes up. -/
def wake [DecidableEq θ] (m : Monitor θ) (t : θ) : Monitor θ :=
  { m with asleep := Function.update m.asleep t false }

/-- All threads wake up. -/
def broadcast (m : Monitor θ) : Monitor θ := { m with asleep := fun _ => false }

@[simp] theorem holder_unlock (m : Monitor θ) : m.unlock.holder = none := rfl

section Waiting

variable [DecidableEq θ]

@[simp] theorem holder_wait (m : Monitor θ) (t : θ) : (m.wait t).holder = none := rfl

@[simp] theorem asleep_wait_self (m : Monitor θ) (t : θ) : (m.wait t).asleep t = true :=
  Function.update_self ..

theorem asleep_wait_of_ne (m : Monitor θ) (h : u ≠ t) : (m.wait t).asleep u = m.asleep u :=
  Function.update_of_ne h ..

@[simp] theorem asleep_wake_self (m : Monitor θ) (t : θ) : (m.wake t).asleep t = false :=
  Function.update_self ..

theorem asleep_wake_of_ne (m : Monitor θ) (h : u ≠ t) : (m.wake t).asleep u = m.asleep u :=
  Function.update_of_ne h ..

end Waiting

/-- **Who gets the mutex**: a thread that does not sleep, when it is free. -/
theorem lock_eq_some_iff :
    m.lock t = some m' ↔ m.holder = none ∧ m.asleep t = false ∧ m' = ⟨some t, m.asleep⟩ := by
  rw [lock]
  cases hm : m.holder with
  | none =>
    cases ha : m.asleep t with
    | true => simp
    | false => simp [eq_comm]
  | some u => simp

end Monitor

end DuckChat
