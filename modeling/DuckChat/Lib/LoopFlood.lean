import Mathlib.Logic.Relation
import Mathlib.Tactic.Common

/-!
# Floods that cut loops

A message spreads along the links of a symmetric relation. A vertex that it reaches for the first
time passes it on along every link but the one back to the sender; a vertex that it reaches again
refuses it, and when the refusal arrives the link is cut. While the flood is on its way the links
are cut one direction at a time. In the end those that are left are the links of a tree, in both
directions: the vertices are as connected as before.

The state of a link goes through `Link`, from `idle` or `sent` on; a system is connected to this by
what it has on the wires and in its tables.

## Main definitions

* `Link` — how far the message has come on a link
* `LoopFlood` — the invariant
* `startLink`, `acceptLink`, `setLink` — the steps of the flood

## Main results

* `LoopFlood.start`, `LoopFlood.accept`, `LoopFlood.set`
* `LoopFlood.symm`, `LoopFlood.connected` — what is left when nothing is on the way
-/

set_option autoImplicit false

namespace DuckChat

open Relation (ReflTransGen)

/-- A link in one direction: nothing was sent along it; a copy is on the way; the copy was the first
to arrive; it was not, and the refusal is on the way back; the link is cut. -/
inductive Link where
  | idle
  | sent
  | tree
  | refused
  | cut
deriving DecidableEq

section

variable {V : Type} {L : V → V → Prop} {o u v : V} {reached reached' : V → Prop}
  {link : V → V → Link} {x : Link}

/-- The message started at `o`, along the links `L`. -/
structure LoopFlood (L : V → V → Prop) (o : V) (reached : V → Prop) (link : V → V → Link) :
    Prop where
  root : reached o
  outside : ∀ u v, ¬ L u v → link u v = .cut
  /-- Only vertices that were not reached, and those that have it from the other end, send
  nothing. -/
  idle : ∀ u v, L u v → (link u v = .idle ↔ ¬ reached u ∨ link v u = .tree)
  arrived : ∀ u v, L u v → link u v = .tree ∨ link u v = .refused ∨ link u v = .cut → reached v
  path : ∀ v, reached v → ReflTransGen (fun a b => link a b = .tree) o v

theorem LoopFlood.of_ne_cut (h : LoopFlood L o reached link) (hl : link u v ≠ .cut) : L u v := by
  by_contra hL
  exact hl (h.outside u v hL)

/-- The sender of a message was reached. -/
theorem LoopFlood.reached_of_sent (h : LoopFlood L o reached link)
    (hl : link u v = .sent ∨ link u v = .refused) : reached u := by
  by_contra hu
  have hL : L u v := h.of_ne_cut fun hc => by rw [hc] at hl; rcases hl with hl | hl <;> cases hl
  have hidle := (h.idle u v hL).mpr (Or.inl hu)
  rw [hidle] at hl
  rcases hl with hl | hl <;> cases hl

/-- What comes from the other end as the first copy is not answered by a copy. -/
theorem LoopFlood.ne_tree (h : LoopFlood L o reached link)
    (hl : link u v = .sent ∨ link u v = .refused) : link v u ≠ .tree := by
  intro ht
  have hL : L u v := h.of_ne_cut fun hc => by rw [hc] at hl; rcases hl with hl | hl <;> cases hl
  have hidle := (h.idle u v hL).mpr (Or.inr ht)
  rw [hidle] at hl
  rcases hl with hl | hl <;> cases hl

/-- A vertex that was not reached has sent nothing. -/
theorem LoopFlood.unreached (h : LoopFlood L o reached link) (hv : ¬ reached v) (w : V) :
    link v w = .idle ∨ link v w = .cut := by
  by_cases hL : L v w
  · exact Or.inl ((h.idle v w hL).mpr (Or.inl hv))
  · exact Or.inr (h.outside v w hL)

variable [DecidableEq V]

/-! ### The steps -/

/-- The vertex `o` sends a copy along each of its links. -/
def startLink (L : V → V → Prop) [DecidableRel L] (o : V) (a b : V) : Link :=
  if L a b then if a = o then .sent else .idle else .cut

/-- The copy from `u` is the first to arrive at `v`, which sends one along each other link. -/
def acceptLink (link : V → V → Link) (u v a b : V) : Link :=
  if a = u ∧ b = v then .tree
  else if a = v ∧ b ≠ u ∧ link a b ≠ .cut then .sent
  else link a b

/-- One link changes. -/
def setLink (link : V → V → Link) (u v : V) (x : Link) (a b : V) : Link :=
  if a = u ∧ b = v then x else link a b

section Steps

variable {a b : V}

theorem startLink_sent [DecidableRel L] : startLink L o a b = .sent ↔ L a b ∧ a = o := by
  unfold startLink
  split
  · next hL =>
    split
    · next ha => exact iff_of_true rfl ⟨hL, ha⟩
    · next ha => exact iff_of_false Link.noConfusion fun hc => ha hc.2
  · next hL => exact iff_of_false Link.noConfusion fun hc => hL hc.1

theorem startLink_refused [DecidableRel L] : startLink L o a b ≠ .refused := by
  unfold startLink
  split
  · split <;> exact Link.noConfusion
  · exact Link.noConfusion

theorem startLink_cut [DecidableRel L] : startLink L o a b = .cut ↔ ¬ L a b := by
  unfold startLink
  split
  · next hL =>
    split <;> exact iff_of_false Link.noConfusion (not_not.mpr hL)
  · next hL => exact iff_of_true rfl hL

theorem acceptLink_sent (huv : link u v = .sent) (hv : ∀ w, link v w = .idle ∨ link v w = .cut) :
    acceptLink link u v a b = .sent ↔
      (link a b = .sent ∧ ¬ (a = u ∧ b = v)) ∨ (a = v ∧ b ≠ u ∧ link a b ≠ .cut) := by
  unfold acceptLink
  split
  · next hab =>
    refine iff_of_false Link.noConfusion ?_
    rintro (hc | ⟨ha, -, -⟩)
    · exact hc.2 hab
    · rw [← hab.1, ha] at huv
      rcases hv v with hl | hl <;> rw [huv] at hl <;> cases hl
  · next hab =>
    split
    · next hvb => exact iff_of_true rfl (Or.inr hvb)
    · next hvb => exact ⟨fun hl => Or.inl ⟨hl, hab⟩, fun hl => (hl.resolve_right hvb).1⟩

theorem acceptLink_refused (huv : link u v = .sent)
    (hv : ∀ w, link v w = .idle ∨ link v w = .cut) :
    acceptLink link u v a b = .refused ↔ link a b = .refused := by
  unfold acceptLink
  split
  · next hab =>
    rw [hab.1, hab.2, huv]
    exact iff_of_false Link.noConfusion Link.noConfusion
  · split
    · next hvb =>
      refine iff_of_false Link.noConfusion ?_
      rw [hvb.1]
      rcases hv b with hl | hl <;> rw [hl] <;> exact Link.noConfusion
    · exact Iff.rfl

theorem acceptLink_cut (huv : link u v = .sent) :
    acceptLink link u v a b = .cut ↔ link a b = .cut := by
  unfold acceptLink
  split
  · next hab =>
    rw [hab.1, hab.2, huv]
    exact iff_of_false Link.noConfusion Link.noConfusion
  · split
    · next hvb => exact iff_of_false Link.noConfusion hvb.2.2
    · exact Iff.rfl

theorem setLink_eq {y : Link} :
    setLink link u v x a b = y ↔ (a = u ∧ b = v ∧ x = y) ∨ (¬ (a = u ∧ b = v) ∧ link a b = y) := by
  unfold setLink
  split
  · next hab => simp [hab]
  · next hab =>
    refine ⟨fun hl => Or.inr ⟨hab, hl⟩, ?_⟩
    rintro (⟨ha, hb, -⟩ | ⟨-, hl⟩)
    · exact absurd ⟨ha, hb⟩ hab
    · exact hl

end Steps

theorem LoopFlood.start [DecidableRel L] (hr : ∀ v, reached v ↔ v = o) :
    LoopFlood L o reached (startLink L o) where
  root := (hr o).mpr rfl
  outside u v hL := if_neg hL
  idle u v hL := by
    have hne : startLink L o v u ≠ .tree := by
      unfold startLink
      split
      · split <;> exact Link.noConfusion
      · exact Link.noConfusion
    rw [startLink, if_pos hL, hr, or_iff_left hne]
    split
    · next hu => exact iff_of_false Link.noConfusion (not_not.mpr hu)
    · next hu => exact iff_of_true rfl hu
  arrived u v hL h := by
    rw [startLink, if_pos hL] at h
    split at h <;> rcases h with h | h | h <;> cases h
  path v hv := by
    rw [(hr v).mp hv]

/-- Only the link from `u` joins the tree, and no link leaves it. -/
theorem LoopFlood.acceptLink_eq_tree (h : LoopFlood L o reached link) (hv : ¬ reached v) (a b : V) :
    acceptLink link u v a b = .tree ↔ (a = u ∧ b = v) ∨ link a b = .tree := by
  unfold acceptLink
  split
  · next hab => exact iff_of_true rfl (Or.inl hab)
  · next hab =>
    rw [or_iff_right hab]
    split
    · next hvb =>
      refine iff_of_false Link.noConfusion ?_
      rw [hvb.1]
      rcases h.unreached hv b with hb | hb <;> rw [hb] <;> exact Link.noConfusion
    · exact Iff.rfl

/-- **A first arrival.** -/
theorem LoopFlood.accept (h : LoopFlood L o reached link) (huv : link u v = .sent)
    (hv : ¬ reached v) (hr : ∀ x, reached' x ↔ reached x ∨ x = v) :
    LoopFlood L o reached' (acceptLink link u v) := by
  have hu : reached u := h.reached_of_sent (Or.inl huv)
  have hvu : v ≠ u := fun he => hv (by rw [he]; exact hu)
  have htree := h.acceptLink_eq_tree (u := u) hv
  have hmono : ∀ x, reached x → reached' x := fun x hx => (hr x).mpr (Or.inl hx)
  refine ⟨hmono o h.root, ?_, ?_, ?_, ?_⟩
  · intro a b hL
    have hcut := h.outside a b hL
    have hab : ¬ (a = u ∧ b = v) := by
      rintro ⟨rfl, rfl⟩
      rw [huv] at hcut
      cases hcut
    rw [acceptLink, if_neg hab, if_neg fun hc => hc.2.2 hcut]
    exact hcut
  · intro a b hL
    rw [htree]
    by_cases hab : a = u ∧ b = v
    · obtain ⟨rfl, rfl⟩ := hab
      rw [acceptLink, if_pos ⟨rfl, rfl⟩]
      refine iff_of_false Link.noConfusion ?_
      rintro (hna | ⟨he, -⟩ | ht)
      · exact hna (hmono a hu)
      · exact hvu he
      · exact h.ne_tree (Or.inl huv) ht
    · rw [acceptLink, if_neg hab]
      by_cases ha : a = v
      · rw [ha] at hL ⊢
        have hnot : ¬ ¬ reached' v := not_not.mpr ((hr v).mpr (Or.inr rfl))
        have hcut : link v b ≠ .cut := by
          rw [(h.idle v b hL).mpr (Or.inl hv)]
          exact Link.noConfusion
        by_cases hb : b = u
        · rw [if_neg fun hc => hc.2.1 hb, (h.idle v b hL).mpr (Or.inl hv)]
          exact iff_of_true rfl (Or.inr (Or.inl ⟨hb, rfl⟩))
        · rw [if_pos ⟨rfl, hb, hcut⟩]
          refine iff_of_false Link.noConfusion ?_
          rintro (hn | ⟨he, -⟩ | ht)
          · exact hnot hn
          · exact hb he
          · have hbv : L b v := h.of_ne_cut (by rw [ht]; exact Link.noConfusion)
            exact hv (h.arrived b v hbv (Or.inl ht))
      · rw [if_neg fun hc => ha hc.1, h.idle a b hL, hr, or_iff_left ha,
          or_iff_right (a := b = u ∧ a = v) fun hc => ha hc.2]
  · intro a b hL hab
    rw [hr]
    by_cases he : a = u ∧ b = v
    · exact Or.inr he.2
    · rw [acceptLink, if_neg he] at hab
      split at hab
      · rcases hab with hc | hc | hc <;> cases hc
      · exact Or.inl (h.arrived a b hL hab)
  · intro x hx
    have hstep : ∀ a b, link a b = .tree → acceptLink link u v a b = .tree := fun a b hab =>
      (htree a b).mpr (Or.inr hab)
    rcases (hr x).mp hx with hx | rfl
    · exact ReflTransGen.mono hstep _ _ (h.path x hx)
    · exact (ReflTransGen.mono hstep _ _ (h.path u hu)).tail ((htree u x).mpr (Or.inl ⟨rfl, rfl⟩))

/-- **A later arrival, and the arrival of a refusal.** -/
theorem LoopFlood.set (h : LoopFlood L o reached link)
    (huv : link u v = .sent ∨ link u v = .refused) (hx : x = .refused ∨ x = .cut)
    (hv : reached v) : LoopFlood L o reached (setLink link u v x) := by
  have htree : ∀ a b, setLink link u v x a b = .tree ↔ link a b = .tree := by
    intro a b
    unfold setLink
    split
    · next hab =>
      rw [hab.1, hab.2]
      refine iff_of_false ?_ ?_
      · rcases hx with rfl | rfl <;> exact Link.noConfusion
      · rcases huv with hl | hl <;> rw [hl] <;> exact Link.noConfusion
    · exact Iff.rfl
  have hsame : ∀ a b, ¬ (a = u ∧ b = v) → setLink link u v x a b = link a b := fun a b hab =>
    if_neg hab
  refine ⟨h.root, ?_, ?_, ?_, ?_⟩
  · intro a b hL
    have hcut := h.outside a b hL
    rw [hsame a b ?_]
    · exact hcut
    · rintro ⟨rfl, rfl⟩
      rw [hcut] at huv
      rcases huv with hl | hl <;> cases hl
  · intro a b hL
    rw [htree]
    by_cases hab : a = u ∧ b = v
    · obtain ⟨rfl, rfl⟩ := hab
      rw [setLink, if_pos ⟨rfl, rfl⟩]
      refine iff_of_false ?_ ?_
      · rcases hx with rfl | rfl <;> exact Link.noConfusion
      · rintro (hna | ht)
        · exact hna (h.reached_of_sent huv)
        · exact h.ne_tree huv ht
    · rw [hsame a b hab]
      exact h.idle a b hL
  · intro a b hL hab
    by_cases he : a = u ∧ b = v
    · rw [he.2]
      exact hv
    · rw [hsame a b he] at hab
      exact h.arrived a b hL hab
  · intro y hy
    exact ReflTransGen.mono (fun a b hab => (htree a b).mpr hab) _ _ (h.path y hy)

end

/-! ### When nothing is on the way -/

section Quiet

variable {V : Type} {L : V → V → Prop} {o : V} {reached : V → Prop} {link : V → V → Link}

theorem LoopFlood.all_reached (h : LoopFlood L o reached link)
    (hq : ∀ u v, link u v ≠ .sent ∧ link u v ≠ .refused) (hconn : ∀ v, ReflTransGen L o v) (v : V) :
    reached v := by
  induction hconn v with
  | refl => exact h.root
  | @tail u v _ hL hu =>
    cases hl : link u v with
    | idle =>
      rcases (h.idle u v hL).mp hl with hn | ht
      · exact absurd hu hn
      · by_contra hv
        have hLvu : L v u := h.of_ne_cut (by rw [ht]; exact Link.noConfusion)
        have hidle := (h.idle v u hLvu).mpr (Or.inl hv)
        rw [ht] at hidle
        cases hidle
    | sent => exact absurd hl (hq u v).1
    | tree => exact h.arrived u v hL (Or.inl hl)
    | refused => exact absurd hl (hq u v).2
    | cut => exact h.arrived u v hL (Or.inr (Or.inr hl))

/-- What is left is symmetric. -/
theorem LoopFlood.symm (h : LoopFlood L o reached link) (hL : ∀ u v, L u v → L v u)
    (hq : ∀ u v, link u v ≠ .sent ∧ link u v ≠ .refused) (hall : ∀ v, reached v) {u v : V}
    (huv : link u v ≠ .cut) : link v u ≠ .cut := by
  have hLuv : L u v := h.of_ne_cut huv
  cases hl : link u v with
  | idle =>
    rcases (h.idle u v hLuv).mp hl with hn | ht
    · exact absurd (hall u) hn
    · rw [ht]
      exact Link.noConfusion
  | sent => exact absurd hl (hq u v).1
  | tree =>
    rw [(h.idle v u (hL u v hLuv)).mpr (Or.inr hl)]
    exact Link.noConfusion
  | refused => exact absurd hl (hq u v).2
  | cut => exact absurd hl huv

/-- **What is left connects everything.** -/
theorem LoopFlood.connected (h : LoopFlood L o reached link) (hL : ∀ u v, L u v → L v u)
    (hq : ∀ u v, link u v ≠ .sent ∧ link u v ≠ .refused) (hconn : ∀ v, ReflTransGen L o v)
    (u v : V) : ReflTransGen (fun a b => link a b ≠ .cut) u v := by
  have hall := h.all_reached hq hconn
  have hfrom : ∀ w, ReflTransGen (fun a b => link a b ≠ .cut) o w := fun w =>
    ReflTransGen.mono (fun a b hab => by rw [hab]; exact Link.noConfusion) _ _ (h.path w (hall w))
  have hsymm : Std.Symm fun a b => link a b ≠ .cut := ⟨fun a b hab => h.symm hL hq hall hab⟩
  exact (ReflTransGen.stdSymm.symm o u (hfrom u)).trans (hfrom v)

end Quiet

end DuckChat
