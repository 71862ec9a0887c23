import Mathlib.Combinatorics.SimpleGraph.Acyclic
import Mathlib.Tactic.Common

/-!
# Floods on trees

A message starts at one vertex of a tree, and every vertex that it reaches for the first time passes
it on to some of its neighbours, but never back. Seen from the start every copy then moves away
along an edge from a parent to a child, into a part of the tree that the message has not reached.
So it reaches no vertex twice, and if it is always passed on to every other neighbour and no copy is
lost, it reaches them all.

Which vertices are reached is a predicate and how many copies are on an edge a function, so that a
system is connected to this by counting its messages.

## Main definitions

* `Parent G o u v` — `u` is the neighbour of `v` on the way to `o`
* `Flood` — the safety invariant
* `Covers` — nothing is skipped
* `Above`, `CoversTo` — nothing is skipped on the way to certain vertices

## Main results

* `Parent.unique`, `parent_or_parent`, `exists_parent`
* `Flood.deliver` — a first arrival keeps the invariant
* `Covers.all_reached`, `CoversTo.reached_of_wanted` — when no copy is left, everything is reached
-/

set_option autoImplicit false

namespace DuckChat

variable {V : Type} {G : SimpleGraph V} {o u u' v w : V}

/-! ### Rooted trees -/

/-- `u` is the neighbour of `v` on the way to the root `o`. -/
def Parent (G : SimpleGraph V) (o u v : V) : Prop := G.Adj u v ∧ G.dist o v = G.dist o u + 1

theorem Parent.ne_root (h : Parent G o u v) : v ≠ o := by
  rintro rfl
  have hd := h.2
  rw [SimpleGraph.dist_self] at hd
  omega

/-- The parent of a vertex is none of its children. -/
theorem Parent.ne_child (h : Parent G o u v) (h' : Parent G o v w) : u ≠ w := by
  have h₁ := h.2
  have h₂ := h'.2
  rintro rfl
  omega

theorem parent_or_parent (hG : G.IsTree) (o : V) (h : G.Adj u v) :
    Parent G o u v ∨ Parent G o v u := by
  rcases hG.dist_eq_dist_add_one_of_adj o h with hd | hd
  · exact Or.inr ⟨h.symm, hd⟩
  · exact Or.inl ⟨h, hd⟩

/-- Two parents give two shortest paths. -/
theorem Parent.unique (hG : G.IsTree) (h : Parent G o u v) (h' : Parent G o u' v) : u = u' := by
  obtain ⟨p, hp, hlen⟩ := hG.connected.exists_path_of_dist o u
  obtain ⟨p', hp', hlen'⟩ := hG.connected.exists_path_of_dist o u'
  have hq : (p.concat h.1).IsPath := by
    refine SimpleGraph.Walk.isPath_of_length_eq_dist _ ?_
    rw [SimpleGraph.Walk.length_concat, hlen, h.2]
  have hq' : (p'.concat h'.1).IsPath := by
    refine SimpleGraph.Walk.isPath_of_length_eq_dist _ ?_
    rw [SimpleGraph.Walk.length_concat, hlen', h'.2]
  have heq := congrArg Subtype.val ((hG.isAcyclic.subsingleton_path o v).elim ⟨_, hq⟩ ⟨_, hq'⟩)
  have hpen := congrArg SimpleGraph.Walk.penultimate heq
  simpa using hpen

theorem exists_parent (hG : G.IsTree) (h : v ≠ o) : ∃ u, Parent G o u v := by
  obtain ⟨p, hlen⟩ := hG.connected.exists_walk_length_eq_dist v o
  cases p with
  | nil => exact absurd rfl h
  | cons hadj q =>
    rename_i w
    refine ⟨w, hadj.symm, ?_⟩
    have hle : G.dist o w ≤ q.length := by
      rw [SimpleGraph.dist_comm]
      exact SimpleGraph.dist_le q
    rw [SimpleGraph.Walk.length_cons, SimpleGraph.dist_comm] at hlen
    rcases hG.dist_eq_dist_add_one_of_adj o hadj with hd | hd
    · exact hd
    · omega

/-- What holds of the root, and of a vertex if it holds of the parent, holds of every vertex. -/
theorem parent_induction (hG : G.IsTree) {P : V → Prop} (ho : P o)
    (hstep : ∀ u v, P u → Parent G o u v → P v) (v : V) : P v := by
  generalize hd : G.dist o v = d
  induction d generalizing v with
  | zero =>
    rw [← hG.connected.dist_eq_zero_iff.mp hd]
    exact ho
  | succ d ih =>
    have hne : v ≠ o := by
      rintro rfl
      rw [SimpleGraph.dist_self] at hd
      omega
    obtain ⟨u, hu⟩ := exists_parent hG hne
    refine hstep u v (ih u ?_) hu
    have hdist := hu.2
    omega

/-- A vertex of a kind, or one on the way to it. -/
inductive Above (G : SimpleGraph V) (o : V) (wanted : V → Prop) : V → Prop where
  | here {v : V} (hv : wanted v) : Above G o wanted v
  | child {v w : V} (hw : Parent G o v w) (hbelow : Above G o wanted w) : Above G o wanted v

/-! ### The message reaches no vertex twice -/

/-- The message started at `o` and has reached some vertices; copies of it are on the edges. -/
structure Flood (G : SimpleGraph V) (o : V) (reached : V → Prop) (copies : V → V → ℕ) : Prop where
  le_one : ∀ u v, copies u v ≤ 1
  /-- A copy moves from a vertex that was reached to a child that was not. -/
  edge : ∀ u v, 0 < copies u v → Parent G o u v ∧ reached u ∧ ¬ reached v
  /-- The message came from the parent. -/
  parent : ∀ v, reached v → v ≠ o → ∃ u, Parent G o u v ∧ reached u

section Flood

variable {reached reached' : V → Prop} {copies copies' : V → V → ℕ}

theorem Flood.start (sent : V → ℕ) (hr : ∀ v, reached v ↔ v = o) (h1 : ∀ v, sent v ≤ 1)
    (hadj : ∀ v, 0 < sent v → G.Adj o v) (hc : ∀ v, copies o v ≤ sent v)
    (hz : ∀ u v, u ≠ o → copies u v = 0) : Flood G o reached copies where
  le_one u v := by
    by_cases hu : u = o
    · rw [hu]
      exact (hc v).trans (h1 v)
    · rw [hz u v hu]
      exact Nat.zero_le 1
  edge u v h := by
    have hu : u = o := by
      by_contra hne
      rw [hz u v hne] at h
      exact absurd h (Nat.lt_irrefl 0)
    rw [hu] at h ⊢
    have hov := hadj v (h.trans_le (hc v))
    refine ⟨⟨hov, ?_⟩, (hr o).mpr rfl, fun hv => hov.ne ((hr v).mp hv).symm⟩
    rw [SimpleGraph.dist_self, SimpleGraph.dist_eq_one_iff_adj.mpr hov]
  parent v hv hne := absurd ((hr v).mp hv) hne

/-- Copies may get lost. -/
theorem Flood.of_le (h : Flood G o reached copies) (hc : ∀ u v, copies' u v ≤ copies u v) :
    Flood G o reached copies' where
  le_one u v := (hc u v).trans (h.le_one u v)
  edge u v hu := h.edge u v (hu.trans_le (hc u v))
  parent := h.parent

/-- **A first arrival.** The copy from `u` is taken by `v`, which passes at most one to each of its
other neighbours. -/
theorem Flood.deliver (sent : V → ℕ) (hG : G.IsTree) (h : Flood G o reached copies)
    (huv : 0 < copies u v) (hr : ∀ x, reached' x ↔ reached x ∨ x = v) (h1 : ∀ y, sent y ≤ 1)
    (hadj : ∀ y, 0 < sent y → G.Adj v y ∧ y ≠ u) (htaken : copies' u v < copies u v)
    (hv : ∀ y, copies' v y ≤ copies v y + sent y)
    (hold : ∀ x y, x ≠ v → copies' x y ≤ copies x y) : Flood G o reached' copies' := by
  obtain ⟨hpar, hu, hnv⟩ := h.edge u v huv
  have hzero : ∀ y, copies v y = 0 := by
    intro y
    by_contra hne
    exact hnv (h.edge v y (Nat.pos_of_ne_zero hne)).2.1
  have hsent : ∀ y, copies' v y ≤ sent y := fun y => by
    have := hv y
    rw [hzero y] at this
    omega
  refine ⟨fun x y => ?_, fun x y hxy => ?_, fun x hx hxo => ?_⟩
  · by_cases hx : x = v
    · rw [hx]
      exact (hsent y).trans (h1 y)
    · exact (hold x y hx).trans (h.le_one x y)
  · by_cases hx : x = v
    · subst hx
      obtain ⟨hxy', hyu⟩ := hadj y (hxy.trans_le (hsent y))
      -- a neighbour other than the parent is a child
      have hchild : Parent G o x y :=
        (parent_or_parent hG o hxy').resolve_right fun hp => hyu (hp.unique hG hpar)
      refine ⟨hchild, (hr x).mpr (Or.inr rfl), fun hy => ?_⟩
      rcases (hr y).mp hy with hy | rfl
      · -- it would have been reached from `x`, which was not reached
        obtain ⟨z, hz, hzr⟩ := h.parent y hy hchild.ne_root
        rw [hz.unique hG hchild] at hzr
        exact hnv hzr
      · exact hxy'.ne rfl
    · obtain ⟨hp, hxr, hyr⟩ := h.edge x y (hxy.trans_le (hold x y hx))
      refine ⟨hp, (hr x).mpr (Or.inl hxr), fun hy => ?_⟩
      rcases (hr y).mp hy with hy | rfl
      · exact hyr hy
      · rw [hp.unique hG hpar] at hxy
        have := h.le_one u y
        omega
  · rcases (hr x).mp hx with hx | rfl
    · obtain ⟨z, hz, hzr⟩ := h.parent x hx hxo
      exact ⟨z, hz, (hr z).mpr (Or.inl hzr)⟩
    · exact ⟨u, hpar, (hr u).mpr (Or.inl hu)⟩

/-! ### The message reaches every vertex -/

/-- A child of a vertex that was reached is reached as well, or has a copy on the way. -/
def Covers (G : SimpleGraph V) (o : V) (reached : V → Prop) (copies : V → V → ℕ) : Prop :=
  ∀ u v, reached u → Parent G o u v → reached v ∨ 0 < copies u v

/-- An arrival at `v`, from where copies go to all children. -/
theorem Covers.deliver (h : Covers G o reached copies) (hr : ∀ x, reached' x ↔ reached x ∨ x = v)
    (hv : ∀ y, Parent G o v y → 0 < copies' v y)
    (hold : ∀ x y, x ≠ v → y ≠ v → copies x y ≤ copies' x y) : Covers G o reached' copies' := by
  intro x y hx hxy
  by_cases hxv : x = v
  · subst hxv
    exact Or.inr (hv y hxy)
  · rcases (hr x).mp hx with hx | hx
    · rcases h x y hx hxy with hy | hc
      · exact Or.inl ((hr y).mpr (Or.inl hy))
      · by_cases hyv : y = v
        · exact Or.inl ((hr y).mpr (Or.inr hyv))
        · exact Or.inr (hc.trans_le (hold x y hxv hyv))
    · exact absurd hx hxv

/-- **When no copy is left, every vertex was reached.** -/
theorem Covers.all_reached (hG : G.IsTree) (h : Covers G o reached copies) (ho : reached o)
    (hz : ∀ u v, copies u v = 0) (v : V) : reached v := by
  generalize hd : G.dist o v = d
  induction d generalizing v with
  | zero =>
    rw [← hG.connected.dist_eq_zero_iff.mp hd]
    exact ho
  | succ d ih =>
    have hne : v ≠ o := by
      rintro rfl
      rw [SimpleGraph.dist_self] at hd
      omega
    obtain ⟨u, hu⟩ := exists_parent hG hne
    have hdu : G.dist o u = d := by
      have := hu.2
      omega
    rcases h u v (ih u hdu) hu with hv | hc
    · exact hv
    · rw [hz] at hc
      exact absurd hc (Nat.lt_irrefl 0)

/-! ### The message reaches certain vertices -/

/-- A child of a vertex that was reached, on the way to a vertex that is wanted, is reached as well,
or has a copy on the way. -/
def CoversTo (G : SimpleGraph V) (o : V) (wanted reached : V → Prop) (copies : V → V → ℕ) : Prop :=
  ∀ u v, reached u → Parent G o u v → Above G o wanted v → reached v ∨ 0 < copies u v

section CoversTo

variable {wanted : V → Prop}

/-- An arrival at `v`, from where copies go to the children that matter. -/
theorem CoversTo.deliver (h : CoversTo G o wanted reached copies)
    (hr : ∀ x, reached' x ↔ reached x ∨ x = v)
    (hv : ∀ y, Parent G o v y → Above G o wanted y → 0 < copies' v y)
    (hold : ∀ x y, x ≠ v → y ≠ v → copies x y ≤ copies' x y) :
    CoversTo G o wanted reached' copies' := by
  intro x y hx hxy hy
  by_cases hxv : x = v
  · subst hxv
    exact Or.inr (hv y hxy hy)
  by_cases hyv : y = v
  · exact Or.inl ((hr y).mpr (Or.inr hyv))
  rcases h x y (((hr x).mp hx).resolve_right hxv) hxy hy with hy | hc
  · exact Or.inl ((hr y).mpr (Or.inl hy))
  · exact Or.inr (hc.trans_le (hold x y hxv hyv))

/-- **When no copy is left, what is wanted was reached.** -/
theorem CoversTo.reached_of_wanted (hG : G.IsTree) (h : CoversTo G o wanted reached copies)
    (ho : reached o) (hz : ∀ u v, copies u v = 0) (hv : wanted v) : reached v := by
  refine parent_induction (P := fun v => Above G o wanted v → reached v) hG (fun _ => ho)
    (fun u v hu huv hv => ?_) v (.here hv)
  rcases h u v (hu (.child huv hv)) huv hv with hv | hc
  · exact hv
  · rw [hz] at hc
    exact absurd hc (Nat.lt_irrefl 0)

end CoversTo

end Flood

end DuckChat
