import DuckChat.NetworkRules

/-!
# A say is handled at most once

Every path that sends a say with an identifier also records the identifier, and a server that has
recorded it answers every further copy with a leave. This holds in any topology and over wires that
lose, duplicate and reorder; all it takes is that different says draw different identifiers.

The window of 1024 identifiers needs no hypothesis here: a search beyond it leaves the array, which
is a fault, so no server accepts a copy because it has forgotten the first one.

## Main definitions

* `Event.Handles` — a step that sends something of a say, or starts it
* `SayInv` — the invariant

## Main results

* `SayInv.of_run` — the invariant holds in every run from startup
* `say_handled_at_most_once`
-/

set_option autoImplicit false

namespace DuckChat

variable {ι : Type}

/-- The step sends texts or packets of the say with the identifier, or is the one that draws it. -/
def Event.Handles (e : Event ι) (id : Id) : Prop :=
  e.sayId = some id ∧ (e.sendsText ∨ e.sendsSay id ∨ e.drawnId = some id)

/-- In a log where all drawn identifiers are different, what ties the log to the windows and the
wires. -/
structure SayInv (n : Net ι) : Prop where
  /-- Every say in flight was drawn by some server. -/
  flight : ∀ p ∈ n.flight, ∀ m, p.msg = .say m → m.id ∈ n.drawnIds
  /-- Every say that was handled was drawn by some server. -/
  drawn : ∀ e ∈ n.log, ∀ id, e.sayId = some id → id ∈ n.drawnIds
  /-- A server that has handled a say has seen it, as long as it is running. -/
  seen : ∀ e ∈ n.log, ∀ id, e.Handles id → ∀ s, n.node e.server = .running s →
    s.recentIds.Seen id
  /-- Packets of a say are sent in steps that carry it. -/
  carried : ∀ e ∈ n.log, ∀ id, e.sendsSay id → e.sayId = some id
  /-- No server has handled a say twice. -/
  once : n.log.Pairwise fun e e' => e.server = e'.server → ∀ id, e.Handles id → ¬ e'.Handles id

theorem sayInv_start (nbrs : ι → List Sockaddr) (unset now : ι → ℤ) :
    SayInv (Net.start nbrs unset now) where
  flight := by intro p hp; cases hp
  drawn := by intro e he; cases he
  seen := by intro e he; cases he
  carried := by intro e he; cases he
  once := List.Pairwise.nil

/-- Fewer packets and the same servers and log. -/
theorem SayInv.of_subset {n n' : Net ι} (h : SayInv n) (hn : n'.node = n.node)
    (hl : n'.log = n.log) (hf : ∀ p ∈ n'.flight, p ∈ n.flight) : SayInv n' where
  flight p hp := by rw [Net.drawnIds, hl]; exact h.flight p (hf p hp)
  drawn := by rw [Net.drawnIds, hl]; exact h.drawn
  seen := by rw [hl, hn]; exact h.seen
  carried := by rw [hl]; exact h.carried
  once := by rw [hl]; exact h.once

/-- A server that sends texts or packets of a say it did not draw had not seen the say. -/
theorem not_seen_of_handles [DecidableEq ι] {s : ServerState} {i : ι} {inp : Input} {id : Id}
    (h : (⟨i, inp, (react s inp).out⟩ : Event ι).Handles id) (hd : inp.drawnId ≠ some id) :
    ¬ s.recentIds.Seen id := by
  obtain ⟨hid, hs⟩ := h
  have hne : ∃ d ∈ (react s inp).out, d.isText = true ∨ d.isSay id = true := by
    rcases hs with hs | hs | hs
    · obtain ⟨d, hm, ht⟩ := List.any_eq_true.mp hs
      exact ⟨d, hm, Or.inl ht⟩
    · obtain ⟨d, hm, ht⟩ := List.any_eq_true.mp hs
      exact ⟨d, hm, Or.inr ht⟩
    · exact absurd hs hd
  obtain ⟨d, hm, ht⟩ := hne
  rcases inp with ⟨a, (rq | x), drawn, now⟩ | now | now
  · cases rq <;> exact absurd hid hd
  · cases x with
    | join c => cases hid
    | leave c => cases hid
    | say m =>
      cases hid
      rw [← hasId_eq_ok_false]
      change d ∈ (reqServSay s a m).out at hm
      generalize hx : reqServSay s a m = r at hm
      cases hx ▸ reqServSay_cases s a m with
      | fault f hf ho hne => exact hne (List.ne_nil_of_mem hm)
      | duplicate =>
        rw [List.mem_singleton.mp hm] at ht
        rcases ht with ht | ht <;> cases ht
      | prune h => exact h
      | forward h => exact h
  · cases hid
  · cases hid

section OneInput

variable [DecidableEq ι] {addr : ι ↪ Sockaddr} {n : Net ι} {i : ι} {inp : Input}
  {s s' : ServerState} {e : Event ι} {id : Id}

/-- A server that has handled a say before an input has still seen it after. -/
theorem SayInv.seen_act (h : SayInv n) (he : e ∈ n.log) (hh : e.Handles id)
    (hs' : (n.act addr i inp).node e.server = .running s') : s'.recentIds.Seen id := by
  by_cases hei : e.server = i
  · rw [hei] at hs'
    obtain ⟨s, hs, hr⟩ := Net.exists_of_act_running hs'
    exact seen_of_react hr (h.seen e he id hh s (by rw [hei, hs]))
  · rw [Net.node_act_of_ne hei] at hs'
    exact h.seen e he id hh s' hs'

/-- Nothing that an input makes its server handle was handled there before. -/
theorem SayInv.not_handles (h : SayInv n) (hs : n.node i = .running s)
    (hnew : ∀ id, inp.drawnId = some id → id ∉ n.drawnIds)
    (hh : (⟨i, inp, (react s inp).out⟩ : Event ι).Handles id) (he : e ∈ n.log)
    (hie : i = e.server) : ¬ e.Handles id := by
  intro heh
  by_cases hd : inp.drawnId = some id
  · exact hnew id hd (h.drawn e he id heh.1)
  · exact not_seen_of_handles hh hd (h.seen e he id heh s (by rw [← hie, hs]))

/-- **The step lemma.** One input at one server keeps the invariant, provided all identifiers drawn
so far differ. -/
theorem SayInv.act (h : SayInv n)
    (hp : ∀ src m drawn now, inp = .datagram src (.s2s (.say m)) drawn now → m.id ∈ n.drawnIds)
    (hnd : (n.act addr i inp).drawnIds.Nodup) : SayInv (n.act addr i inp) := by
  rcases n.act_cases addr i inp with ⟨f, -, ha⟩ | ⟨s, hs, -, -, hf, hl⟩
  · rw [ha]
    exact h
  have hdrawn : (n.act addr i inp).drawnIds = inp.drawnId.toList ++ n.drawnIds :=
    Net.drawnIds_cons hl
  have hnew : ∀ id, inp.drawnId = some id → id ∉ n.drawnIds := by
    intro id hid
    rw [hdrawn, hid, Option.toList_some, List.singleton_append] at hnd
    exact (List.nodup_cons.mp hnd).1
  have hold : ∀ id ∈ n.drawnIds, id ∈ (n.act addr i inp).drawnIds := fun id hid => by
    rw [hdrawn]
    exact List.mem_append_right _ hid
  -- the say that the input carries is a drawn one, after the step
  have hcarried : ∀ id, inp.sayId = some id → id ∈ (n.act addr i inp).drawnIds := by
    intro id hid
    rcases Input.cases_of_sayId hid with hd | ⟨src, m, drawn, now, he, rfl⟩
    · rw [hdrawn, hd]
      exact List.mem_cons_self
    · exact hold _ (hp src m drawn now he)
  refine ⟨?_, ?_, ?_, ?_, ?_⟩
  · intro p hpf m hm
    rw [hf] at hpf
    rcases List.mem_append.mp hpf with hpf | hpf
    · exact hold _ (h.flight p hpf m hm)
    · obtain ⟨-, hd⟩ := mem_packets.mp hpf
      rw [hm] at hd
      exact hcarried _ (sayId_of_mem_out hd)
  · intro e he id hid
    rw [hl] at he
    rcases List.mem_cons.mp he with rfl | he
    · exact hcarried id hid
    · exact hold _ (h.drawn e he id hid)
  · intro e he id heh s' hs'
    rw [hl] at he
    rcases List.mem_cons.mp he with rfl | he
    · obtain ⟨t, ht, hr⟩ := Net.exists_of_act_running hs'
      exact seen_of_sayId hr heh.1
    · exact h.seen_act he heh hs'
  · intro e he id hsay
    rw [hl] at he
    rcases List.mem_cons.mp he with rfl | he
    · obtain ⟨b, m, hd, rfl⟩ := Event.sendsSay_iff.mp hsay
      exact sayId_of_mem_out hd
    · exact h.carried e he id hsay
  · rw [hl]
    exact List.pairwise_cons.mpr
      ⟨fun e he hie id hh => h.not_handles hs hnew hh he hie, h.once⟩

end OneInput

/-- Identifiers that are different stay different looking back. -/
theorem Net.nodup_drawnIds_of_step [DecidableEq ι] {addr : ι ↪ Sockaddr} {n n' : Net ι}
    {a : Action ι} (hst : Net.step addr n a = some n') (hnd : n'.drawnIds.Nodup) :
    n.drawnIds.Nodup := by
  rcases Net.step_cases hst with ⟨n₀, i, inp, -, hlog, -, -, rfl⟩ | ⟨-, hlog, -⟩
  · have hd₀ : n₀.drawnIds = n.drawnIds := by rw [Net.drawnIds, hlog, Net.drawnIds]
    rw [← hd₀]
    rcases n₀.act_cases addr i inp with ⟨f, -, ha⟩ | ⟨s, -, -, -, -, hl⟩
    · rwa [ha] at hnd
    · rw [Net.drawnIds_cons hl] at hnd
      exact (List.nodup_append.mp hnd).2.1
  · rw [Net.drawnIds, ← hlog]
    exact hnd

/-- **The step lemma for the network.** -/
theorem SayInv.step [DecidableEq ι] {addr : ι ↪ Sockaddr} {n n' : Net ι} {a : Action ι}
    (h : SayInv n) (hst : Net.step addr n a = some n') (hnd : n'.drawnIds.Nodup) : SayInv n' := by
  rcases Net.step_cases hst with ⟨n₀, i, inp, hnode, hlog, hfl, hp, rfl⟩ | ⟨hnode, hlog, hfl⟩
  · refine (h.of_subset hnode hlog hfl).act ?_ hnd
    intro src x drawn now he
    rw [Net.drawnIds, hlog]
    exact h.flight _ (hp _ _ _ _ he) x rfl
  · exact h.of_subset hnode hlog hfl

/-- **The run lemma.** -/
theorem SayInv.of_run [DecidableEq ι] {addr : ι ↪ Sockaddr} {ok : Net ι → Action ι → Prop}
    {n n' : Net ι} {acts : List (Action ι)} (h : Run (Net.step addr) ok n acts n')
    (hn : SayInv n) (hnd : n'.drawnIds.Nodup) : SayInv n' :=
  h.invariant (P := fun m => m.drawnIds.Nodup → SayInv m)
    (fun _ _ _ ih _ hst hnd' => (ih (Net.nodup_drawnIds_of_step hst hnd')).step hst hnd')
    (fun _ => hn) hnd

/-- Two entries that exclude each other are not both counted. -/
theorem countP_le_one {α : Type} {p : α → Bool} {l : List α}
    (h : l.Pairwise fun a b => p a = true → ¬ p b = true) : l.countP p ≤ 1 := by
  induction l with
  | nil => simp
  | cons a l ih =>
    obtain ⟨ha, hl⟩ := List.pairwise_cons.mp h
    cases hp : p a with
    | false => rw [List.countP_cons_of_neg (by simp [hp])]; exact ih hl
    | true =>
      have h0 : l.countP p = 0 := List.countP_eq_zero.mpr fun b hb => ha b hb hp
      rw [List.countP_cons_of_pos hp, h0]

/-- **At most once.** In every run from startup of client requests, renewals, timeouts and
deliveries, in any order and over wires that lose, delay and duplicate, if all drawn identifiers
differ: a server gives a say to its local users in at most one step, sends it on in at most one
step, and where it was drawn it is not given to the local users again. -/
theorem say_handled_at_most_once [DecidableEq ι] (addr : ι ↪ Sockaddr)
    (nbrs : ι → List Sockaddr) (unset now : ι → ℤ) (acts : List (Action ι)) (n : Net ι)
    (h : Run (Net.step addr) (fun _ _ => True) (Net.start nbrs unset now) acts n)
    (hdrawn : n.drawnIds.Nodup) (id : Id) (i : ι) :
    n.log.countP (fun e => e.server = i ∧ e.sayId = some id ∧ e.sendsText) ≤ 1 ∧
      n.log.countP (fun e => e.server = i ∧ e.sendsSay id) ≤ 1 ∧
      ∀ later origin earlier, n.log = later ++ origin :: earlier → origin.server = i →
        origin.drawnId = some id →
        ∀ e ∈ later, e.server = i → e.sayId = some id → e.sendsText = false := by
  have inv := SayInv.of_run h (sayInv_start nbrs unset now) hdrawn
  refine ⟨countP_le_one ?_, countP_le_one ?_, ?_⟩
  · refine inv.once.imp fun {e e'} he h₁ h₂ => ?_
    simp only [decide_eq_true_eq] at h₁ h₂
    exact he (h₁.1.trans h₂.1.symm) id ⟨h₁.2.1, Or.inl h₁.2.2⟩ ⟨h₂.2.1, Or.inl h₂.2.2⟩
  · refine inv.once.imp_of_mem fun {e e'} hm hm' he h₁ h₂ => ?_
    simp only [decide_eq_true_eq] at h₁ h₂
    exact he (h₁.1.trans h₂.1.symm) id ⟨inv.carried e hm id h₁.2, Or.inr (Or.inl h₁.2)⟩
      ⟨inv.carried e' hm' id h₂.2, Or.inr (Or.inl h₂.2)⟩
  · intro later origin earlier hl hi hd e he hei hid
    have hpair := inv.once
    rw [hl] at hpair
    have := (List.pairwise_append.mp hpair).2.2 e he origin List.mem_cons_self
      (hei.trans hi.symm) id
    by_contra ht
    exact this ⟨hid, Or.inl (by simpa using ht)⟩
      ⟨Input.sayId_of_drawnId hd, Or.inr (Or.inr hd)⟩

open Three in
/-- A say crosses the line. -/
theorem say_handled_at_most_once_on_line :
    ∃ n, Run (Net.step addr) (fun _ _ => True) lineStart sayAcross n ∧
      n.log.countP (fun e => e.server = 2 ∧ e.sayId = some 1 ∧ e.sendsText) ≤ 1 := by
  have h : (execute (Net.step addr) (fun _ _ => True) lineStart sayAcross).any
      (fun n => n.drawnIds.Nodup) = true := by decide
  obtain ⟨n, hr, hd⟩ := exists_run_of_execute h
  exact ⟨n, hr, (say_handled_at_most_once _ _ _ _ _ n hr (of_decide_eq_true hd) 1 2).1⟩

end DuckChat
