import DuckChat.Lib.Run

/-!
# What a log says of the past

A log is a list of events, the latest first, so that what is behind an event in the list is what
happened before it. Statements about an event may speak of the events before it: `Once P` says that
some event of the log was such that `P`, and `Always P` that all were. A system that keeps a log
puts events in front of it and takes none away, so that `Always P` is proved from what holds of the
event that is put in front.

## Main definitions

* `Once`, `Always`

## Main results

* `Run.always` — what holds of each new event holds of all events
-/

set_option autoImplicit false

namespace DuckChat

variable {ε σ α : Type} {P : ε → List ε → Prop} {log : List ε}

/-- At some event. -/
def Once (P : ε → List ε → Prop) : List ε → Prop
  | [] => False
  | e :: log => P e log ∨ Once P log

/-- At every event. -/
def Always (P : ε → List ε → Prop) : List ε → Prop
  | [] => True
  | e :: log => P e log ∧ Always P log

instance (P : ε → List ε → Prop) [∀ e log, Decidable (P e log)] :
    (log : List ε) → Decidable (Always P log)
  | [] => inferInstanceAs (Decidable True)
  | e :: log =>
    have := instDecidableAlways P log
    inferInstanceAs (Decidable (P e log ∧ Always P log))

/-- What happened once has happened ever since. -/
theorem Once.cons (h : Once P log) (e : ε) : Once P (e :: log) := Or.inr h

theorem Always.mono {Q : ε → List ε → Prop} (h : Always P log)
    (hPQ : ∀ e earlier, P e earlier → Q e earlier) : Always Q log := by
  induction log with
  | nil => exact h
  | cons e log ih => exact ⟨hPQ e log h.1, ih h.2⟩

/-- **Logs of runs.** In a system with an invariant whose steps put at most one event in front of
the log, what the invariant makes true of every new event is true of all events. -/
theorem Run.always {step : σ → α → Option σ} {ok : σ → α → Prop} {s t : σ} {as : List α}
    {I : σ → Prop} (log : σ → List ε) (h : Run step ok s as t)
    (hI : ∀ s a t, I s → ok s a → step s a = some t → I t)
    (hlog : ∀ s a t, I s → ok s a → step s a = some t →
      log t = log s ∨ ∃ e, log t = e :: log s ∧ P e (log s))
    (hs : I s) (h0 : log s = []) : I t ∧ Always P (log t) := by
  refine h.invariant (P := fun s => I s ∧ Always P (log s)) (fun s a t hs hok hst => ?_)
    ⟨hs, by rw [h0]; exact trivial⟩
  refine ⟨hI s a t hs.1 hok hst, ?_⟩
  rcases hlog s a t hs.1 hok hst with heq | ⟨e, heq, he⟩
  · rw [heq]
    exact hs.2
  · rw [heq]
    exact ⟨he, hs.2⟩

end DuckChat
