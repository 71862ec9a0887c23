import Mathlib.Data.List.Basic
import Mathlib.Tactic.Common

/-!
# Fallible computations that emit

A handler of a server sends datagrams while it works and may hit undefined behaviour half way.
What it sent before that point is on the wire all the same, so the outputs are kept next to the
result and not inside it: `Emit ω ε α` is a list of outputs together with `Except ε α`.

## Main definitions

* `Emit ω ε α`, with its `Monad` instance
* `Emit.emit`, `Emit.emitAll`, `Emit.lift`
* `Emit.Post` — a postcondition for the result and one for the failure
* `Emit.Sends` — a condition on every output
* `Emit.Avoids` — a failure that does not happen

## Main results

* `Emit.bind_eq_ok_iff` — a sequence ends well exactly when both parts do, and its output is the
  two outputs one after the other
* `Emit.mem_out_bind` — what a sequence emits, also when it fails
* `Emit.Post.bind`, `Emit.Post.mono` — the rules for postconditions
* `Emit.Sends.bind`, and a rule for each operation — what a sequence sends, part by part
* `Emit.Avoids.bind`, and a rule for each operation — the same for what does not happen
-/

set_option autoImplicit false

namespace DuckChat

/-- The outputs of a computation, and how it ended. -/
structure Emit (ω ε α : Type) where
  out : List ω
  result : Except ε α

namespace Emit

variable {ω ε α β : Type}

/-- Sequencing. The outputs of the first part stay when the second part fails. -/
def bind (x : Emit ω ε α) (f : α → Emit ω ε β) : Emit ω ε β :=
  match x.result with
  | .error e => ⟨x.out, .error e⟩
  | .ok a => ⟨x.out ++ (f a).out, (f a).result⟩

instance : Monad (Emit ω ε) where
  pure a := ⟨[], .ok a⟩
  bind := bind

/-- Send one output. -/
def emit (w : ω) : Emit ω ε Unit := ⟨[w], .ok ()⟩

/-- Send the outputs of a loop, in order. -/
def emitAll (ws : List ω) : Emit ω ε Unit := ⟨ws, .ok ()⟩

/-- A computation that emits nothing. -/
def lift (r : Except ε α) : Emit ω ε α := ⟨[], r⟩

@[ext] theorem ext {x y : Emit ω ε α} (ho : x.out = y.out) (hr : x.result = y.result) : x = y := by
  cases x
  cases y
  simp_all

@[simp] theorem pure_eq (a : α) : (pure a : Emit ω ε α) = ⟨[], .ok a⟩ := rfl

@[simp] theorem lift_eq (r : Except ε α) : (lift r : Emit ω ε α) = ⟨[], r⟩ := rfl

@[simp] theorem mk_error_bind (o : List ω) (e : ε) (f : α → Emit ω ε β) :
    ((⟨o, .error e⟩ : Emit ω ε α) >>= f) = ⟨o, .error e⟩ := rfl

@[simp] theorem mk_ok_bind (o : List ω) (a : α) (f : α → Emit ω ε β) :
    ((⟨o, .ok a⟩ : Emit ω ε α) >>= f) = ⟨o ++ (f a).out, (f a).result⟩ := rfl

@[simp] theorem emit_bind (w : ω) (f : Unit → Emit ω ε β) :
    ((emit w : Emit ω ε Unit) >>= f) = ⟨w :: (f ()).out, (f ()).result⟩ := rfl

@[simp] theorem emitAll_bind (ws : List ω) (f : Unit → Emit ω ε β) :
    ((emitAll ws : Emit ω ε Unit) >>= f) = ⟨ws ++ (f ()).out, (f ()).result⟩ := rfl

theorem bind_assoc {γ : Type} (x : Emit ω ε α) (f : α → Emit ω ε β) (g : β → Emit ω ε γ) :
    ((x >>= f) >>= g) = x >>= fun a => f a >>= g := by
  obtain ⟨o, e | a⟩ := x
  · rfl
  · rw [mk_ok_bind, mk_ok_bind]
    cases hf : f a with
    | mk o' r => cases r <;> simp

/-- Peeling a sequence apart: the inversion rule every handler lemma goes through. -/
theorem bind_eq_ok_iff {x : Emit ω ε α} {f : α → Emit ω ε β} {b : β} :
    (x >>= f).result = .ok b ↔ ∃ a, x.result = .ok a ∧ (f a).result = .ok b := by
  obtain ⟨o, e | a⟩ := x
  · simp
  · simp

/-- What a sequence emits when its first part ends well. -/
theorem out_bind_of_ok {x : Emit ω ε α} {f : α → Emit ω ε β} {a : α} (h : x.result = .ok a) :
    (x >>= f).out = x.out ++ (f a).out := by
  obtain ⟨o, r⟩ := x
  simp only at h
  subst h
  rfl

/-- What it emits when its first part fails. -/
theorem out_bind_of_error {x : Emit ω ε α} {f : α → Emit ω ε β} {e : ε}
    (h : x.result = .error e) : (x >>= f).out = x.out := by
  obtain ⟨o, r⟩ := x
  simp only at h
  subst h
  rfl

/-- A sequence of silent parts is silent. -/
theorem out_lift_bind_eq_nil {r : Except ε α} {f : α → Emit ω ε β} (h : ∀ a, (f a).out = []) :
    (lift r >>= f).out = [] := by
  cases r with
  | error e => rfl
  | ok a => simp [h]

/-- What a sequence emits, whether or not it ends well. -/
theorem mem_out_bind {x : Emit ω ε α} {f : α → Emit ω ε β} {w : ω} :
    w ∈ (x >>= f).out ↔ w ∈ x.out ∨ ∃ a, x.result = .ok a ∧ w ∈ (f a).out := by
  obtain ⟨o, e | a⟩ := x
  · simp
  · simp

/-! ### Postconditions -/

/-- A result satisfies `Q`, a failure `E`. -/
def Post (Q : α → Prop) (E : ε → Prop) (x : Emit ω ε α) : Prop :=
  match x.result with
  | .ok a => Q a
  | .error e => E e

section Rules

variable {Q : α → Prop} {R : β → Prop} {E : ε → Prop} {x : Emit ω ε α} {f : α → Emit ω ε β}

theorem Post.bind (h : x.Post (fun a => (f a).Post R E) E) : (x >>= f).Post R E := by
  obtain ⟨o, e | a⟩ := x
  · exact h
  · exact h

theorem Post.mono {Q' : α → Prop} (h : x.Post Q E) (hq : ∀ a, Q a → Q' a) : x.Post Q' E := by
  obtain ⟨o, e | a⟩ := x
  · exact h
  · exact hq a h

theorem Post.of_ok {a : α} (h : x.result = .ok a) (hq : Q a) : x.Post Q E := by
  rw [Post, h]
  exact hq

theorem Post.result_ok {a : α} (h : x.Post Q E) (ha : x.result = .ok a) : Q a := by
  rw [Post, ha] at h
  exact h

theorem Post.result_error {e : ε} (h : x.Post Q E) (he : x.result = .error e) : E e := by
  rw [Post, he] at h
  exact h

end Rules

/-! ### What is sent -/

/-- Every output satisfies `P`, also those of a computation that fails. -/
def Sends (P : ω → Prop) (x : Emit ω ε α) : Prop := ∀ w ∈ x.out, P w

section Sends

variable {P : ω → Prop} {x : Emit ω ε α} {f : α → Emit ω ε β}

theorem Sends.bind (hx : x.Sends P) (hf : ∀ a, x.result = .ok a → (f a).Sends P) :
    (x >>= f).Sends P := by
  intro w hw
  rcases mem_out_bind.mp hw with hw | ⟨a, ha, hw⟩
  · exact hx w hw
  · exact hf a ha w hw

theorem sends_pure (a : α) : (pure a : Emit ω ε α).Sends P :=
  fun _ hw => absurd hw List.not_mem_nil

theorem sends_lift (r : Except ε α) : (lift r : Emit ω ε α).Sends P :=
  fun _ hw => absurd hw List.not_mem_nil

theorem sends_emit {w : ω} (hw : P w) : (emit w : Emit ω ε Unit).Sends P :=
  fun _ hv => List.mem_singleton.mp hv ▸ hw

theorem sends_emitAll {ws : List ω} (hws : ∀ w ∈ ws, P w) :
    (emitAll ws : Emit ω ε Unit).Sends P := hws

end Sends

/-! ### What does not happen -/

/-- The computation does not fail in this way. -/
def Avoids (e : ε) (x : Emit ω ε α) : Prop := x.result ≠ .error e

section Avoids

variable {e : ε} {x : Emit ω ε α} {f : α → Emit ω ε β}

theorem Avoids.bind (hx : x.Avoids e) (hf : ∀ a, x.result = .ok a → (f a).Avoids e) :
    (x >>= f).Avoids e := by
  obtain ⟨o, e' | a⟩ := x
  · intro h
    cases h
    exact hx rfl
  · exact hf a rfl

theorem avoids_pure (a : α) : (pure a : Emit ω ε α).Avoids e := fun h => by cases h

theorem avoids_emit (w : ω) : (emit w : Emit ω ε Unit).Avoids e := fun h => by cases h

theorem avoids_emitAll (ws : List ω) : (emitAll ws : Emit ω ε Unit).Avoids e :=
  fun h => by cases h

theorem avoids_lift {r : Except ε α} (h : r ≠ .error e) : (lift r : Emit ω ε α).Avoids e := h

end Avoids

end Emit

end DuckChat
