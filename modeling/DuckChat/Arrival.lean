import DuckChat.Sound
import Mathlib.Data.List.TakeWhile

/-!
# Says and withdrawn channels

`REQ_SERV_SAY` follows the channel it looks up without a test. A say is sent to the neighbours that
list the channel, and a server deletes a channel without looking at what is on the wires; its leave
and the say may cross, and then the say finds nothing. With first-in-first-out links this is the
only way: as long as says are sent to servers that hold the channel, or have a join of it ahead on
the same link, and no channel is deleted under a say on its way, every say finds its channel.

## Main definitions

* `Net.firstOnLink` — first-in-first-out deliveries
* `Net.sessions` — the actions of the runs considered
* `Net.SaysArrive` — every say that may be delivered next finds its channel
* `Net.guardsSays` — the condition on the steps
* `SayRoute` — the invariant
* `Guarded` — the condition for one input

## Main results

* `SayRoute.act`, `SayRoute.step` — the step lemmas
* `says_arrive`, `says_crossing_leaves`
-/

set_option autoImplicit false

namespace DuckChat

/-! ### Order on the wires -/

section Lists

variable {α : Type} [DecidableEq α] {p q r : α} {l xs : List α}

theorem mem_takeWhile_append (h : r ∈ l.takeWhile (· ≠ q)) : r ∈ (l ++ xs).takeWhile (· ≠ q) := by
  induction l with
  | nil => cases h
  | cons x l ih =>
    by_cases hx : x = q
    · simp [hx] at h
    · simp only [List.cons_append, List.takeWhile_cons, ne_eq, hx, not_false_eq_true, decide_true,
        if_true, List.mem_cons] at h ⊢
      exact h.imp_right ih

/-- What is there comes before what is appended. -/
theorem mem_takeWhile_of_not_mem (hq : q ∉ l) (hr : r ∈ l) :
    r ∈ (l ++ xs).takeWhile (· ≠ q) := by
  have hall : l.takeWhile (· ≠ q) = l := List.takeWhile_eq_self_iff.mpr fun x hx => by
    have hne : x ≠ q := fun he => hq (by rw [← he]; exact hx)
    exact decide_eq_true hne
  exact mem_takeWhile_append (by rwa [hall])

/-- Taking something else away does not change the order. -/
theorem mem_takeWhile_erase (h : r ∈ l.takeWhile (· ≠ q)) (hp : r ≠ p) :
    r ∈ (l.erase p).takeWhile (· ≠ q) := by
  induction l with
  | nil => cases h
  | cons x l ih =>
    by_cases hx : x = q
    · simp [hx] at h
    · simp only [List.takeWhile_cons, ne_eq, hx, not_false_eq_true, decide_true, if_true,
        List.mem_cons] at h
      by_cases hxp : x = p
      · subst hxp
        rw [List.erase_cons_head]
        exact h.resolve_left hp
      · rw [List.erase_cons_tail (by simpa using hxp)]
        simp only [List.takeWhile_cons, ne_eq, hx, not_false_eq_true, decide_true, if_true,
          List.mem_cons]
        exact h.imp_right ih

/-- Nothing that passes the test comes before the first that does. -/
theorem not_mem_takeWhile_of_find? {f : α → Bool} (h : l.find? f = some q) (hr : f r = true) :
    r ∉ l.takeWhile (· ≠ q) := by
  induction l with
  | nil => cases h
  | cons x l ih =>
    by_cases hx : x = q
    · simp [hx]
    · have hfx : f x = false := by
        by_contra hne
        rw [List.find?_cons_of_pos (by simpa using hne)] at h
        exact hx (Option.some.inj h)
      rw [List.find?_cons_of_neg (by simp [hfx])] at h
      simp only [List.takeWhile_cons, ne_eq, hx, not_false_eq_true, decide_true, if_true,
        List.mem_cons, not_or]
      refine ⟨fun he => ?_, ih h⟩
      rw [he, hfx] at hr
      cases hr

end Lists

variable {ι : Type}

namespace Net

/-- The packet is the first in flight between its two ends. -/
def firstOnLink (n : Net ι) (p : Packet) : Bool :=
  n.flight.find? (fun q => q.src = p.src ∧ q.dst = p.dst) = some p

/-- One packet is ahead of every copy of another one. -/
def Ahead (n : Net ι) (r q : Packet) : Prop := r ∈ n.flight.takeWhile (· ≠ q)

instance (n : Net ι) (r q : Packet) : Decidable (n.Ahead r q) :=
  inferInstanceAs (Decidable (r ∈ n.flight.takeWhile (· ≠ q)))

/-- Logins and joins of clients, leaves and says of members, and deliveries in the order of the
link. -/
def sessions (n : Net ι) : Action ι → Bool
  | .client _ _ (.login _) _ _ => true
  | .client _ _ (.join _) _ _ => true
  | .client i clientAddr (.leave c) _ _ => n.isMember i clientAddr c
  | .client i clientAddr (.say c _) _ _ => n.isMember i clientAddr c
  | .deliver _ p _ => n.firstOnLink p
  | _ => false

/-- Whatever say is the next one on its link, the server at the other end holds its channel. -/
def SaysArrive (T : Topology ι) (n : Net ι) : Prop :=
  ∀ p ∈ n.flight, n.firstOnLink p → ∀ v m, p.dst = T.addr v → p.msg = .say m →
    (n.node v).isRunning → n.Holds v m.reqChannel

/-- A server holds the channel, or has a join of it on the wire from the sender. -/
def Receptive (T : Topology ι) (n : Net ι) (u v : ι) (c : Name) : Prop :=
  n.Holds v c ∨ n.JoinInFlight T u v c

instance (T : Topology ι) (n : Net ι) (u v : ι) (c : Name) : Decidable (n.Receptive T u v c) :=
  inferInstanceAs (Decidable (n.Holds v c ∨ (_ : Packet) ∈ n.flight))

/-- One user is left in the channel. -/
def soleUser (n : Net ι) (v : ι) (c : Name) : Bool :=
  match n.node v with
  | .running s =>
      match findChannel s.channels c with
      | some chnl => chnl.numUsers = 1
      | none => false
  | .faulted _ => false

/-- A say of the channel is not dropped at the server: it has users there, or two neighbours list
it. -/
def passesOn (n : Net ι) (u : ι) (c : Name) : Bool :=
  match n.node u with
  | .running s => (findChannel s.channels c).any fun active =>
      ¬ (active.numUsers = 0 ∧ hasChannelServers s.cnnctSrvrs c ≤ 1)
  | .faulted _ => false

/-- A say is put on a link only to a server that holds its channel or has a join of it on the way
from the sender, and a channel is deleted only if every say of it on the way has a join ahead. -/
def guardsSays (T : Topology ι) (n : Net ι) : Action ι → Bool
  | .client u _ (.say c _) _ _ => ∀ v ∈ T.nbrs u, n.Lists u (T.addr v) c → n.Receptive T u v c
  | .client v _ (.leave c) _ _ => n.soleUser v c → ∀ q ∈ n.flight, q.dst = T.addr v →
      q.msg.sayChannel = some c → n.Ahead ⟨q.src, q.dst, .join c⟩ q
  | .deliver u p _ =>
      match p.msg with
      | .say m => n.isFresh u m.id → n.passesOn u m.reqChannel → ∀ v ∈ T.nbrs u,
          T.addr v ≠ p.src → n.Lists u (T.addr v) m.reqChannel → n.Receptive T u v m.reqChannel
      | _ => true
  | _ => true

end Net

/-! ### The invariant -/

/-- A say on its way is about a channel that its receiver holds, or has a join ahead. -/
structure SayRoute (T : Topology ι) (n : Net ι) : Prop where
  neighbours : ∀ i s, n.node i = .running s → s.neighbours = T.nbrAddrs i
  route : ∀ q ∈ n.flight, ∀ v m, q.dst = T.addr v → q.msg = .say m → (n.node v).isRunning →
    n.Holds v m.reqChannel ∨ n.Ahead ⟨q.src, q.dst, .join m.reqChannel⟩ q

theorem sayRoute_start (T : Topology ι) (unset now : ι → ℤ) : SayRoute T (T.start unset now) where
  neighbours i s hs := by
    cases hs
    exact neighbours_start
  route q hq := absurd hq List.not_mem_nil

theorem SayRoute.saysArrive {T : Topology ι} {n : Net ι} (h : SayRoute T n) : n.SaysArrive T := by
  intro q hq hfirst v m hdst hm hv
  rcases h.route q hq v m hdst hm hv with hc | ha
  · exact hc
  · refine absurd ha (not_mem_takeWhile_of_find? (of_decide_eq_true hfirst) ?_)
    simp

/-- What the guard says about one input. `n₀` is the network before the input, without the packet
that carries it. -/
structure Guarded [DecidableEq ι] (T : Topology ι) (n n₀ : Net ι) (i : ι) (inp : Input) :
    Prop where
  node : n₀.node = n.node
  flight : ∀ q ∈ n₀.flight, q ∈ n.flight
  ahead : ∀ q v c, n.Ahead ⟨q.src, T.addr v, .join c⟩ q →
    n₀.Ahead ⟨q.src, T.addr v, .join c⟩ q ∨
      (v = i ∧ ∃ src drawn now, inp = .datagram src (.s2s (.join c)) drawn now)
  send : ∀ s m v, n.node i = .running s →
    (⟨T.addr v, .s2s (.say m)⟩ : Datagram) ∈ (react s inp).out →
    n.Holds v m.reqChannel ∨ ⟨T.addr i, T.addr v, .join m.reqChannel⟩ ∈ n₀.flight
  leave : ∀ a c drawn now, inp = .datagram a (.client (.leave c)) drawn now → n.soleUser i c →
    ∀ q ∈ n₀.flight, q.dst = T.addr i → q.msg.sayChannel = some c →
      n.Ahead ⟨q.src, q.dst, .join c⟩ q

section OneInput

variable [DecidableEq ι] {T : Topology ι} {n n₀ : Net ι} {i v : ι} {inp : Input} {q : Packet}
  {m : SayS2S} {c : Name}

/-- A channel that was held is still held, unless it was emptied by a leave. -/
theorem Guarded.holds (hg : Guarded T n n₀ i inp)
    (hv : ((n₀.act T.addr i inp).node v).isRunning) (hc : n.Holds v c) :
    (n₀.act T.addr i inp).Holds v c ∨
      (v = i ∧ n.soleUser i c ∧
        ∃ a drawn now, inp = .datagram a (.client (.leave c)) drawn now) := by
  by_cases hvi : v = i
  · subst hvi
    obtain ⟨s', hs'⟩ := Node.exists_of_isRunning hv
    obtain ⟨s, hs, hr⟩ := Net.exists_of_act_running hs'
    rw [hg.node] at hs
    rw [Net.holds_iff hs] at hc
    rcases mem_names_of_react hr hc with hc' | ⟨a, drawn, now, chnl, hinp, hf, h1⟩
    · exact Or.inl ((Net.holds_iff hs').mpr hc')
    · refine Or.inr ⟨rfl, ?_, a, drawn, now, hinp⟩
      rw [Net.soleUser, hs]
      simp only [hf]
      exact decide_eq_true h1
  · refine Or.inl ((Net.holds_congr ?_).mpr hc)
    rw [Net.node_act_of_ne hvi, hg.node]

theorem Guarded.isRunning (hg : Guarded T n n₀ i inp)
    (hv : ((n₀.act T.addr i inp).node v).isRunning) : (n.node v).isRunning := by
  by_cases hvi : v = i
  · subst hvi
    obtain ⟨s', hs'⟩ := Node.exists_of_isRunning hv
    obtain ⟨s, hs, -⟩ := Net.exists_of_act_running hs'
    rw [← hg.node, hs]
    rfl
  · rw [Net.node_act_of_ne hvi, hg.node] at hv
    exact hv

theorem Net.Ahead.act {r : Packet} (h : n.Ahead r q) (inp : Input) :
    (n.act T.addr i inp).Ahead r q := by
  rcases n.act_cases T.addr i inp with ⟨f, -, ha⟩ | ⟨s, -, -, -, hfl, -⟩
  · rw [ha]
    exact h
  · rw [Net.Ahead, hfl]
    exact mem_takeWhile_append h

/-- A join that was ahead still is, or has arrived. -/
theorem Guarded.arrive (hg : Guarded T n n₀ i inp)
    (hv : ((n₀.act T.addr i inp).node v).isRunning) (ha : n.Ahead ⟨q.src, T.addr v, .join c⟩ q) :
    (n₀.act T.addr i inp).Holds v c ∨
      (n₀.act T.addr i inp).Ahead ⟨q.src, T.addr v, .join c⟩ q := by
  rcases hg.ahead q v c ha with ha | ⟨rfl, src, drawn, now, rfl⟩
  · exact Or.inr (ha.act _)
  · obtain ⟨s', hs'⟩ := Node.exists_of_isRunning hv
    obtain ⟨s, -, hr⟩ := Net.exists_of_act_running hs'
    exact Or.inl ((Net.holds_iff hs').mpr (mem_names_reqServJoin hr))

/-- A say that was on its way before the input. -/
theorem SayRoute.stays (h : SayRoute T n) (hg : Guarded T n n₀ i inp) (hq : q ∈ n₀.flight)
    (hdst : q.dst = T.addr v) (hm : q.msg = .say m)
    (hv : ((n₀.act T.addr i inp).node v).isRunning) :
    (n₀.act T.addr i inp).Holds v m.reqChannel ∨
      (n₀.act T.addr i inp).Ahead ⟨q.src, q.dst, .join m.reqChannel⟩ q := by
  rcases h.route q (hg.flight q hq) v m hdst hm (hg.isRunning hv) with hc | ha
  · rcases hg.holds hv hc with hc' | ⟨rfl, hsole, a, drawn, now, hinp⟩
    · exact Or.inl hc'
    · have ha := hg.leave a _ drawn now hinp hsole q hq hdst (by rw [hm]; rfl)
      rw [hdst] at ha ⊢
      exact hg.arrive hv ha
  · rw [hdst] at ha ⊢
    exact hg.arrive hv ha

/-- A say that is sent on the input. -/
theorem Guarded.sent (hg : Guarded T n n₀ i inp) (hq : q ∈ (n₀.act T.addr i inp).flight)
    (hold : q ∉ n₀.flight) (hdst : q.dst = T.addr v) (hm : q.msg = .say m)
    (hv : ((n₀.act T.addr i inp).node v).isRunning) :
    (n₀.act T.addr i inp).Holds v m.reqChannel ∨
      (n₀.act T.addr i inp).Ahead ⟨q.src, q.dst, .join m.reqChannel⟩ q := by
  rcases n₀.act_cases T.addr i inp with ⟨f, -, ha⟩ | ⟨s, hs, -, -, hfl, -⟩
  · rw [ha] at hq
    exact absurd hq hold
  rw [hg.node] at hs
  rw [hfl] at hq
  obtain ⟨hsrc, hd⟩ := mem_packets.mp ((List.mem_append.mp hq).resolve_left hold)
  rw [hm, hdst] at hd
  rcases hg.send s m v hs hd with hc | hjoin
  · refine Or.inl ((hg.holds hv hc).resolve_right ?_)
    -- a leave sends no says
    rintro ⟨-, -, a, drawn, now, rfl⟩
    rcases (mem_say_out hd).2 with ⟨_, _, _, he⟩ | ⟨_, _, _, he, -⟩ <;> cases he
  · refine Or.inr ?_
    rw [Net.Ahead, hfl, hsrc, hdst]
    exact mem_takeWhile_of_not_mem hold hjoin

/-- **The step lemma.** -/
theorem SayRoute.act (h : SayRoute T n) (hg : Guarded T n n₀ i inp) :
    SayRoute T (n₀.act T.addr i inp) := by
  refine ⟨fun j t ht => ?_, fun q hq v m hdst hm hv => ?_⟩
  · by_cases hji : j = i
    · subst hji
      obtain ⟨s, hs, hr⟩ := Net.exists_of_act_running ht
      rw [hg.node] at hs
      exact (neighbours_of_react hr).trans (h.neighbours j s hs)
    · rw [Net.node_act_of_ne hji, hg.node] at ht
      exact h.neighbours j t ht
  · by_cases hold : q ∈ n₀.flight
    · exact h.stays hg hold hdst hm hv
    · exact hg.sent hq hold hdst hm hv

end OneInput

/-- A say is passed on where it is not dropped. -/
theorem exists_active_of_say_mem_out {s : ServerState} {a b : Sockaddr} {m m' : SayS2S}
    (h : (⟨b, .s2s (.say m)⟩ : Datagram) ∈ (reqServSay s a m').out) :
    ∃ active, findChannel s.channels m'.reqChannel = some active ∧
      ¬ (active.numUsers = 0 ∧ hasChannelServers s.cnnctSrvrs m'.reqChannel ≤ 1) := by
  have hcases := reqServSay_cases s a m'
  generalize reqServSay s a m' = r at h hcases
  cases hcases with
  | fault f hf ho => cases ho _ h
  | duplicate => cases List.mem_singleton.mp h
  | prune => cases List.mem_singleton.mp h
  | forward _ _ hf hk => exact ⟨_, hf, hk⟩

/-- A record that lists a channel belongs to a neighbour. -/
theorem SayRoute.lists {T : Topology ι} {n : Net ι} {i v : ι} {s : ServerState} {c : Name}
    (h : SayRoute T n) (hs : n.node i = .running s)
    (hl : ∃ srvr ∈ s.cnnctSrvrs, srvr.addr = T.addr v ∧ c ∈ srvr.subs) :
    v ∈ T.nbrs i ∧ n.Lists i (T.addr v) c := by
  obtain ⟨srvr, hm, ha, hc⟩ := hl
  have hn := h.neighbours i s hs
  have hmem : srvr.addr ∈ s.neighbours := List.mem_map_of_mem (f := Server.addr) hm
  rw [hn, ha] at hmem
  refine ⟨Topology.mem_nbrAddrs.mp hmem, (Net.lists_iff hs).mpr ?_⟩
  have hnd : s.neighbours.Nodup := by
    rw [hn]
    exact (T.nodup i).map T.addr.injective
  rw [← ha, subsOf_eq (findServerAddress_of_mem hnd hm)]
  exact hc

/-- **The step lemma for the network.** -/
theorem SayRoute.step [DecidableEq ι] {T : Topology ι} {n n' : Net ι} {a : Action ι}
    (h : SayRoute T n) (ha : n.sessions a) (hg : n.guardsSays T a)
    (hst : Net.step T.addr n a = some n') : SayRoute T n' := by
  cases a with
  | client i clientAddr rq drawn now =>
    cases hst
    refine h.act ⟨rfl, fun q hq => hq, fun q v c hr => Or.inl hr, ?_, ?_⟩
    · intro s m v hs hd
      obtain ⟨hlist, ⟨_, t, _, he⟩ | ⟨_, _, _, he, -⟩⟩ := mem_say_out hd
      · obtain ⟨hv, hl⟩ := h.lists hs hlist
        cases he
        exact of_decide_eq_true hg v hv hl
      · cases he
    · intro a c _ _ he hsole q hq hdst hc
      cases he
      exact of_decide_eq_true hg hsole q hq hdst hc
  | deliver i p now =>
    simp only [Net.step] at hst
    split at hst
    case isFalse => cases hst
    next hp =>
    cases hst
    refine h.act ⟨rfl, fun q hq => List.mem_of_mem_erase hq, ?_, ?_, ?_⟩
    · intro q v c hr
      by_cases he : (⟨q.src, T.addr v, .join c⟩ : Packet) = p
      · have hv : v = i := T.addr.injective (by rw [← hp.2, ← he])
        exact Or.inr ⟨hv, p.src, 0, now, by rw [← he]⟩
      · exact Or.inl (mem_takeWhile_erase hr he)
    · intro s m v hs hd
      obtain ⟨hlist, ⟨_, t, _, he⟩ | ⟨src, _, _, he, hne, hid⟩⟩ := mem_say_out hd
      · cases he
      · obtain ⟨hv, hl⟩ := h.lists hs hlist
        have hm : p.msg = .say m := by
          injection he with _ hrq
          injection hrq
        have hsrc : p.src = src := by injection he
        have hfresh : n.isFresh i m.id := by
          rw [Net.isFresh, hs]
          have hnot := hasId_eq_ok_false.mp hid
          exact decide_eq_true fun hmem => hnot (Or.inl hmem)
        have hpasses : n.passesOn i m.reqChannel := by
          obtain ⟨active, hf, hk⟩ := exists_active_of_say_mem_out (by rw [hm] at hd; exact hd)
          rw [Net.passesOn, hs]
          dsimp only
          rw [hf]
          exact decide_eq_true hk
        rw [Net.guardsSays, hm] at hg
        refine (of_decide_eq_true hg hfresh hpasses v hv (by rw [hsrc]; exact hne) hl).imp_right
          fun hj => ?_
        refine (List.mem_erase_of_ne fun he => ?_).mpr hj
        rw [← he] at hm
        cases hm
    · intro a c _ _ he
      cases he
  | timeouts i now => cases ha
  | renewal i now => cases ha
  | lose p => cases ha
  | duplicate p => cases ha

/-- **Says arrive.** In every run from startup of logins, joins, leaves and says of members and
first-in-first-out deliveries in which every step keeps the guard, a say that is taken from its
link finds its channel at the server that takes it. -/
theorem says_arrive [DecidableEq ι] (T : Topology ι) (unset now : ι → ℤ) (acts : List (Action ι))
    (n : Net ι) (h : Run (Net.step T.addr) (fun m a => m.sessions a ∧ m.guardsSays T a)
      (T.start unset now) acts n) : n.SaysArrive T :=
  (h.invariant (P := SayRoute T) (fun _ _ _ hm ha hst => hm.step ha.1 ha.2 hst)
    (sayRoute_start T unset now)).saysArrive

/-! ### A say that crosses a leave -/

namespace Three

/-- Server 0 sends a say of Common to server 1. -/
def sayToMiddle : List (Action (Fin 3)) :=
  [request 0 (.login (username 0)) 0, request 0 (.join common) 0,
    request 1 (.login (username 1)) 0, request 1 (.join common) 0, deliver 0 1 (.join common),
    request 0 (.say common hello) 1]

end Three

open Three in
theorem says_arrive_on_line :
    ∃ n, Run (Net.step addr) (fun m a => m.sessions a ∧ m.guardsSays line a) lineStart sayToMiddle
        n ∧
      n.Holds 1 common := by
  have h : (execute (Net.step addr) (fun m a => m.sessions a ∧ m.guardsSays line a) lineStart
      sayToMiddle).any (fun n => ⟨addr 0, addr 1, sayBy 0 common 1⟩ ∈ n.flight ∧
        n.firstOnLink ⟨addr 0, addr 1, sayBy 0 common 1⟩ ∧ (n.node 1).isRunning) = true := by
    decide
  obtain ⟨n, hr, hn⟩ := exists_run_of_execute h
  obtain ⟨hp, hfirst, hrun⟩ := of_decide_eq_true hn
  exact ⟨n, hr, says_arrive line (fun _ => 0) (fun _ => 0) _ n hr _ hp hfirst 1 _ rfl rfl hrun⟩

open Three in
/-- The say is on its way to server 1 when the last user there leaves: it finds no channel. -/
theorem says_crossing_leaves :
    ¬ ∀ (acts : List (Action (Fin 3))) (n : Net (Fin 3)),
        Run (Net.step addr) (fun m a => m.sessions a) lineStart acts n → ¬ n.Overrun →
          n.SaysArrive line := by
  intro hall
  have h : (execute (Net.step addr) (fun m a => m.sessions a) lineStart
      (sayToMiddle ++ [request 1 (.leave common) 0])).any
        (fun n => ⟨addr 0, addr 1, sayBy 0 common 1⟩ ∈ n.flight ∧
          n.firstOnLink ⟨addr 0, addr 1, sayBy 0 common 1⟩ ∧ (∀ i, (n.node i).isRunning) ∧
          ¬ n.Holds 1 common) = true := by decide
  obtain ⟨n, hr, hn⟩ := exists_run_of_execute h
  obtain ⟨hp, hfirst, hrun, hno⟩ := of_decide_eq_true hn
  exact hno (hall _ n hr (Net.not_overrun_of_isRunning hrun) _ hp hfirst 1 _ rfl rfl (hrun 1))

end DuckChat
