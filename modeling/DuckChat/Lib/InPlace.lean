import DuckChat.Lib.Table

/-!
# Removing an element of an array in place

The loops with which C takes an element out of an array, store by store. One goes over the array
from its start with a flag, and moves down what comes behind the first hit; it may clear the slot
that it has just read. The other knows the position, and starts there. Both are given the number of
turns and the index of the first, and an array whose slots behind the elements may hold anything. A
slot that the array does not have is neither read nor stored to.

What is left in the array is `shiftLoop` of its elements, and then slots that do not matter.

## Main definitions

* `getSlot`, `setSlot` — a read and a store, inside the array
* `moveLoop` — the loop with the flag
* `shiftDown` — the loop from a position
* `searchLoop` — the loop that finds the position

## Main results

* `moveLoop_eq` — the elements after the loop, and the hit
* `moveLoop_key` — what the loop does with a test that may fail
* `moveLoop_hit`, `shiftDown_hit` — both delete the element
-/

set_option autoImplicit false

namespace DuckChat

section Loops

variable {ε β : Type} (outside : ε)

/-- `list[i]`. -/
def getSlot (list : List β) (i : ℕ) : Except ε β :=
  match list[i]? with
  | some x => .ok x
  | none => .error outside

/-- `list[i] = x`. -/
def setSlot (list : List β) (i : ℕ) (x : β) : Except ε (List β) :=
  if i < list.length then .ok (list.set i x) else .error outside

/-- `for (i = …; …; i++) if (move) { list[i-1] = list[i]; list[i] = NULL; } else if (hit(list[i]))
{ ret = list[i]; move = 1; }` for a number of turns. The slot is cleared if there is something to
clear it with. -/
def moveLoop (clear : Option β) (hit : ℕ → β → Except ε Bool) :
    ℕ → ℕ → Bool → Option β → List β → Except ε (Option β × List β)
  | 0, _, _, ret, list => .ok (ret, list)
  | n + 1, i, true, ret, list => do
      let x ← getSlot outside list i
      let list ← setSlot outside list (i - 1) x
      let list ← match clear with
        | none => pure list
        | some null => setSlot outside list i null
      moveLoop clear hit n (i + 1) true ret list
  | n + 1, i, false, ret, list => do
      let x ← getSlot outside list i
      if ← hit i x then moveLoop clear hit n (i + 1) true (some x) list
      else moveLoop clear hit n (i + 1) false ret list

/-- `for (i = …; …; i++) list[i] = list[i+1];` for a number of turns. -/
def shiftDown : ℕ → ℕ → List β → Except ε (List β)
  | 0, _, list => .ok list
  | n + 1, i, list => do
      let x ← getSlot outside list (i + 1)
      let list ← setSlot outside list i x
      shiftDown n (i + 1) list

/-- `for (i = …; …; i++) if (hit(list[i])) return i;` for a number of turns. -/
def searchLoop (hit : β → Except ε Bool) : ℕ → ℕ → List β → Except ε (Option ℕ)
  | 0, _, _ => .ok none
  | n + 1, i, list => do
      let x ← getSlot outside list i
      if ← hit x then pure (some i) else searchLoop hit n (i + 1) list

/-- The first hit among elements, the first of them at index `i`. -/
def firstHit (hit : ℕ → β → Bool) : ℕ → List β → Option β
  | _, [] => none
  | i, x :: xs => if hit i x then some x else firstHit hit (i + 1) xs

end Loops

section Slots

variable {ε β : Type} {outside : ε} {l r : List β} {x y : β}

@[simp] theorem ok_bind {α γ : Type} (a : α) (f : α → Except ε γ) :
    ((.ok a : Except ε α) >>= f) = f a := rfl

theorem getSlot_append : getSlot outside (l ++ x :: r) l.length = .ok x := by
  rw [getSlot, List.getElem?_append_right (Nat.le_refl _), Nat.sub_self]
  rfl

theorem setSlot_append : setSlot outside (l ++ x :: r) l.length y = .ok (l ++ y :: r) := by
  rw [setSlot, if_pos (by rw [List.length_append, List.length_cons]; omega),
    List.set_append_right _ _ (Nat.le_refl _), Nat.sub_self]
  rfl

/-- The slot behind. -/
theorem getSlot_append_succ {z : β} :
    getSlot outside (l ++ z :: x :: r) (l.length + 1) = .ok x := by
  have h : getSlot outside (l ++ [z] ++ x :: r) (l ++ [z]).length = .ok x := getSlot_append
  rwa [List.append_assoc, List.length_append] at h

theorem setSlot_append_succ {z : β} :
    setSlot outside (l ++ z :: x :: r) (l.length + 1) y = .ok (l ++ z :: y :: r) := by
  have h : setSlot outside (l ++ [z] ++ x :: r) (l ++ [z]).length y = .ok (l ++ [z] ++ y :: r) :=
    setSlot_append
  rwa [List.append_assoc, List.append_assoc, List.length_append] at h

end Slots

section Rules

variable {ε β : Type} (outside : ε) (clear ret : Option β) (hit : ℕ → β → Except ε Bool)
  (p : ℕ → β → Bool)

/-- **What comes behind the hit** moves down by one slot. The slot that becomes free at the end is
still there. -/
theorem moveLoop_true (l ys rest : List β) (free : β) :
    ∃ v, moveLoop outside clear hit ys.length (l.length + 1) true ret
      (l ++ free :: (ys ++ rest)) = .ok (ret, l ++ ys ++ v :: rest) := by
  induction ys generalizing l free with
  | nil => exact ⟨free, by rw [List.append_nil]; rfl⟩
  | cons y ys ih =>
    -- the slot that was read is the free one of the next turn
    obtain ⟨v, hv⟩ := ih (l ++ [y]) (clear.getD y)
    refine ⟨v, ?_⟩
    simp only [List.length_append, List.append_assoc, List.singleton_append,
      List.length_singleton] at hv
    rw [List.length_cons, moveLoop, List.cons_append, getSlot_append_succ, ok_bind,
      Nat.add_sub_cancel, setSlot_append, ok_bind, List.append_assoc, List.cons_append]
    cases clear with
    | none => exact hv
    | some null =>
      simp only
      rw [setSlot_append_succ, ok_bind]
      exact hv

/-- **The whole loop** on a test that does not fail: the elements become those of `shiftLoop`, and
what it returns is the first hit. -/
theorem moveLoop_eq (l xs rest : List β) :
    ∃ vs, moveLoop outside clear (fun i x => .ok (p i x)) xs.length l.length false ret
        (l ++ (xs ++ rest)) =
      .ok ((firstHit p l.length xs).or ret, l ++ shiftLoop p l.length false xs ++ vs ++ rest) ∧
        (shiftLoop p l.length false xs).length + vs.length = xs.length := by
  induction xs generalizing l with
  | nil => exact ⟨[], by simp [moveLoop, firstHit, shiftLoop]⟩
  | cons x xs ih =>
    rw [List.length_cons, moveLoop, List.cons_append, getSlot_append, ok_bind, firstHit, shiftLoop]
    cases hx : p l.length x with
    | true =>
      obtain ⟨v, hv⟩ := moveLoop_true outside clear (some x) (fun i x => .ok (p i x)) l xs rest x
      refine ⟨[v], ?_⟩
      simp only [ok_bind, if_true, Option.some_or, shiftLoop_true]
      refine ⟨?_, rfl⟩
      rw [hv, List.append_assoc (l ++ xs)]
      rfl
    | false =>
      obtain ⟨vs, hvs, hlen⟩ := ih (l ++ [x])
      simp only [List.length_append, List.length_singleton, List.append_assoc,
        List.singleton_append] at hvs hlen
      refine ⟨vs, ?_⟩
      simp only [ok_bind, Bool.false_eq_true, if_false]
      refine ⟨?_, by rw [List.length_cons]; omega⟩
      rw [hvs]
      simp

/-- Once the flag is set there is no test any more. -/
theorem moveLoop_true_congr (hit' : ℕ → β → Except ε Bool) (n i : ℕ) (list : List β) :
    moveLoop outside clear hit n i true ret list =
      moveLoop outside clear hit' n i true ret list := by
  induction n generalizing i list with
  | zero => rfl
  | succ n ih =>
    rw [moveLoop, moveLoop]
    simp only [ih]

/-- **A test that may fail**: the loop ends well if the scan does, and then like the loop with a
test that does not fail. -/
theorem moveLoop_scan {q : β → Except ε Bool} {p : β → Bool} (hq : ∀ x b, q x = .ok b → p x = b)
    (l xs rest : List β) :
    moveLoop outside clear (fun _ => q) xs.length l.length false ret (l ++ (xs ++ rest)) =
      match scan q xs with
      | .error e => .error e
      | .ok _ => moveLoop outside clear (fun _ x => .ok (p x)) xs.length l.length false ret
          (l ++ (xs ++ rest)) := by
  induction xs generalizing l with
  | nil => rfl
  | cons x xs ih =>
    rw [List.length_cons, moveLoop, moveLoop, List.cons_append, getSlot_append, ok_bind, ok_bind,
      scan]
    cases hx : q x with
    | error e => rfl
    | ok b =>
      rw [ok_bind, ok_bind, hq x b hx]
      cases b with
      | true => exact moveLoop_true_congr ..
      | false =>
        have ih := ih (l ++ [x])
        simp only [List.length_append, List.length_singleton, List.append_assoc,
          List.singleton_append] at ih
        exact ih

theorem find?_of_scan {q : β → Except ε Bool} {p : β → Bool} {xs : List β}
    {r : Option β} (hq : ∀ x b, q x = .ok b → p x = b) (h : scan q xs = .ok r) :
    r = xs.find? p := by
  induction xs with
  | nil =>
    cases h
    rfl
  | cons x xs ih =>
    rw [scan] at h
    cases hx : q x with
    | error e =>
      rw [hx] at h
      cases h
    | ok b =>
      rw [hx] at h
      rw [List.find?_cons, hq x b hx]
      cases b with
      | true =>
        cases h
        rfl
      | false => exact ih h

theorem firstHit_eq_find? (p : β → Bool) (i : ℕ) (xs : List β) :
    firstHit (fun _ => p) i xs = xs.find? p := by
  induction xs generalizing i with
  | nil => rfl
  | cons x xs ih =>
    rw [firstHit, List.find?_cons, ih]
    cases p x <;> rfl

/-- **A removal by key**, from the start of the array: it fails where the scan does, and otherwise
the elements are those without the first match. -/
theorem moveLoop_key {q : β → Except ε Bool} {p : β → Bool} (hq : ∀ x b, q x = .ok b → p x = b)
    (xs rest : List β) :
    match scan q xs with
    | .error e => moveLoop outside clear (fun _ => q) xs.length 0 false none (xs ++ rest) = .error e
    | .ok found => ∃ vs, moveLoop outside clear (fun _ => q) xs.length 0 false none (xs ++ rest) =
        .ok (found, xs.eraseP p ++ vs ++ rest) ∧ (xs.eraseP p).length + vs.length = xs.length := by
  have hscan := moveLoop_scan outside clear none hq [] xs rest
  rw [List.nil_append, List.length_nil] at hscan
  cases h : scan q xs with
  | error e =>
    rw [h] at hscan
    exact hscan
  | ok found =>
    rw [h] at hscan
    obtain ⟨vs, hvs, hlen⟩ := moveLoop_eq outside clear none (fun _ => p) [] xs rest
    rw [List.nil_append, List.length_nil, firstHit_eq_find?, Option.or_none, shiftLoop_eraseP,
      List.nil_append] at hvs
    rw [List.length_nil, shiftLoop_eraseP] at hlen
    rw [find?_of_scan hq h]
    exact ⟨vs, hscan.trans hvs, hlen⟩

/-- Elements that are stored in slots of another kind. -/
theorem shiftLoop_map {α : Type} (g : α → β) (i : ℕ) (move : Bool) (xs : List α) :
    shiftLoop p i move (xs.map g) = (shiftLoop (fun i x => p i (g x)) i move xs).map g := by
  induction xs generalizing i move with
  | nil =>
    cases move with
    | false => rfl
    | true => rfl
  | cons x xs ih =>
    cases move with
    | true => rw [List.map_cons, shiftLoop, shiftLoop, ih, List.map_cons]
    | false =>
      rw [List.map_cons, shiftLoop, shiftLoop, ih, ih]
      split
      · rfl
      · rw [List.map_cons]

/-- The loop from a position is the other one with its flag set, and nothing cleared. -/
theorem shiftDown_eq_moveLoop (n i : ℕ) (list : List β) :
    shiftDown outside n i list =
      (moveLoop outside none hit n (i + 1) true ret list).map Prod.snd := by
  induction n generalizing i list with
  | zero => rfl
  | succ n ih =>
    rw [shiftDown, moveLoop, Nat.add_sub_cancel]
    cases getSlot outside list (i + 1) with
    | error e => rfl
    | ok x =>
      rw [ok_bind, ok_bind]
      cases setSlot outside list i x with
      | error e => rfl
      | ok list => exact ih (i + 1) list

end Rules

/-! ### The first hit -/

section Hit

variable {ε β : Type} (outside : ε) (clear ret : Option β) {x : β} {l r rest : List β}

/-- The first hit behind elements that are passed over. -/
theorem moveLoop_hit_from {hit : ℕ → β → Except ε Bool} (l₀ : List β)
    (hl : ∀ k y, l[k]? = some y → hit (l₀.length + k) y = .ok false)
    (hx : hit (l₀.length + l.length) x = .ok true) :
    ∃ v, moveLoop outside clear hit (l ++ x :: r).length l₀.length false ret
        (l₀ ++ (l ++ x :: r ++ rest)) = .ok (some x, l₀ ++ (l ++ r) ++ v :: rest) := by
  induction l generalizing l₀ with
  | nil =>
    obtain ⟨v, hv⟩ := moveLoop_true outside clear (some x) hit l₀ r rest x
    refine ⟨v, ?_⟩
    have hx : hit l₀.length x = .ok true := hx
    rw [List.nil_append, List.length_cons, moveLoop, List.cons_append, getSlot_append, ok_bind, hx,
      ok_bind, if_pos rfl, hv]
    rfl
  | cons y l ih =>
    have hy : hit l₀.length y = .ok false := hl 0 y rfl
    have hstep : ∀ k, l₀.length + 1 + k = l₀.length + (k + 1) := fun k => by omega
    have ih := ih (l₀ ++ [y])
      (fun k z hz => by
        rw [List.length_append, List.length_singleton, hstep]
        exact hl (k + 1) z hz)
      (by rw [List.length_append, List.length_singleton, hstep]; exact hx)
    simp only [List.length_append, List.append_assoc, List.singleton_append,
      List.length_cons] at ih
    obtain ⟨v, hv⟩ := ih
    refine ⟨v, ?_⟩
    rw [List.cons_append, List.length_cons, moveLoop, List.cons_append, getSlot_append, ok_bind, hy,
      ok_bind, if_neg Bool.false_ne_true]
    simpa using hv

/-- **The loop with the flag deletes the first hit**, and returns it. -/
theorem moveLoop_hit {hit : ℕ → β → Except ε Bool}
    (hl : ∀ k y, l[k]? = some y → hit k y = .ok false) (hx : hit l.length x = .ok true) :
    ∃ v, moveLoop outside clear hit (l ++ x :: r).length 0 false ret (l ++ x :: r ++ rest) =
      .ok (some x, l ++ r ++ v :: rest) := by
  refine moveLoop_hit_from outside clear ret [] (fun k y hy => ?_) ?_
  · rw [List.length_nil, Nat.zero_add]
    exact hl k y hy
  · rw [List.length_nil, Nat.zero_add]
    exact hx

/-- **So does the loop from its position.** -/
theorem shiftDown_hit :
    ∃ v, shiftDown outside r.length l.length (l ++ x :: r ++ rest) = .ok (l ++ r ++ v :: rest) := by
  obtain ⟨v, hv⟩ := moveLoop_true outside none none (fun _ _ => .ok true) l r rest x
  refine ⟨v, ?_⟩
  rw [shiftDown_eq_moveLoop outside none fun _ _ => .ok true, List.append_assoc, List.cons_append,
    hv]
  rfl

theorem searchLoop_none_from {hit : β → Except ε Bool} {xs : List β} (l₀ : List β)
    (hxs : ∀ y ∈ xs, hit y = .ok false) :
    searchLoop outside hit xs.length l₀.length (l₀ ++ (xs ++ rest)) = .ok none := by
  induction xs generalizing l₀ with
  | nil => rfl
  | cons y xs ih =>
    rw [List.forall_mem_cons] at hxs
    have ih := ih (l₀ ++ [y]) hxs.2
    simp only [List.length_append, List.length_singleton, List.append_assoc,
      List.singleton_append] at ih
    rw [List.length_cons, searchLoop, List.cons_append, getSlot_append, ok_bind, hxs.1, ok_bind,
      if_neg Bool.false_ne_true, ih]

theorem searchLoop_hit_from {hit : β → Except ε Bool} {n : ℕ} (l₀ : List β)
    (hl : ∀ y ∈ l, hit y = .ok false) (hx : hit x = .ok true) (hn : l.length < n) :
    searchLoop outside hit n l₀.length (l₀ ++ (l ++ x :: r)) =
      .ok (some (l₀.length + l.length)) := by
  induction l generalizing l₀ n with
  | nil =>
    obtain ⟨n, rfl⟩ := Nat.exists_eq_succ_of_ne_zero (Nat.ne_of_gt hn)
    rw [searchLoop, List.nil_append, getSlot_append, ok_bind, hx, ok_bind]
    rfl
  | cons y l ih =>
    obtain ⟨n, rfl⟩ := Nat.exists_eq_succ_of_ne_zero (Nat.ne_of_gt (Nat.zero_lt_of_lt hn))
    rw [List.forall_mem_cons] at hl
    have ih := ih (n := n) (l₀ ++ [y]) hl.2 (Nat.lt_of_succ_lt_succ hn)
    simp only [List.length_append, List.length_singleton, List.append_assoc,
      List.singleton_append] at ih
    rw [searchLoop, List.cons_append, getSlot_append, ok_bind, hl.1, ok_bind,
      if_neg Bool.false_ne_true, ih, List.length_cons, Nat.add_right_comm, Nat.add_assoc]

/-- **The position is that of the first hit.** -/
theorem searchLoop_hit {hit : β → Except ε Bool} {n : ℕ}
    (hl : ∀ y ∈ l, hit y = .ok false) (hx : hit x = .ok true) (hn : l.length < n) :
    searchLoop outside hit n 0 (l ++ x :: r) = .ok (some l.length) := by
  have h := searchLoop_hit_from outside (r := r) [] hl hx hn
  rwa [List.length_nil, Nat.zero_add] at h

/-- Without a hit the search ends behind the elements. -/
theorem searchLoop_none {hit : β → Except ε Bool} {xs : List β}
    (hxs : ∀ y ∈ xs, hit y = .ok false) :
    searchLoop outside hit xs.length 0 (xs ++ rest) = .ok none :=
  searchLoop_none_from outside [] hxs

end Hit

end DuckChat
