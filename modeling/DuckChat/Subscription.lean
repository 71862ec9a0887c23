import DuckChat.Sound
import Mathlib.Logic.Relation

/-!
# Subscriptions propagate

Joins of clients and of servers spread a channel over the whole connected component. On every edge
three things are tied together: what a server holds, the joins it has on the wire, and what its
neighbour lists for it. A client's join announces the channel before it exists and a server's join
after; both paths have the same effect in the end, `JoinStep`, and the invariant needs no more.

## Main definitions

* `JoinStep` — what a login, a join of a client and a join of a server have in common
* `Moved` — what a step of one server does to the network
* `JoinInv` — the invariant
* `Net.joinsOnly` — the actions of the runs considered

## Main results

* `Net.overrun_or_moved`, `JoinInv.act` — the step lemmas
* `subscriptions_propagate`
-/

set_option autoImplicit false

namespace DuckChat

/-! ### One server -/

/-- Channels are only added, the new ones are announced to every neighbour, and the only
subscription added is the one that the input announces. -/
structure JoinStep (s s' : ServerState) (sent : List Datagram)
    (noted : Option (Sockaddr × Name)) : Prop where
  neighbours : s'.neighbours = s.neighbours
  names : ∀ c ∈ s.names, c ∈ s'.names
  new : ∀ c ∈ s'.names, c ∉ s.names → ∀ b ∈ s.neighbours, ⟨b, .s2s (.join c)⟩ ∈ sent
  sent : ∀ d ∈ sent, ∃ c ∈ s'.names, ∃ b ∈ s.neighbours, d = ⟨b, .s2s (.join c)⟩
  subs : ∀ a c, c ∈ s'.subsOf a ↔ c ∈ s.subsOf a ∨ noted = some (a, c)
  held : ∀ a c, noted = some (a, c) → c ∈ s'.names

section OneServer

variable {s s' : ServerState} {a b : Sockaddr} {c : Name} {u : Username} {now : ℤ}

theorem joinStep_login (h : (reqLogin s a u).result = .ok s') :
    JoinStep s s' (reqLogin s a u).out none := by
  have hsub := subsOf_congr (reqLogin_ok h).1
  have hn := names_reqLogin h
  rw [reqLogin_out]
  exact
    { neighbours := congrArg (List.map Server.addr) (reqLogin_ok h).1
      names := fun c hc => by rw [hn]; exact hc
      new := fun c hc hold => absurd (by rwa [hn] at hc) hold
      sent := fun d hd => absurd hd List.not_mem_nil
      subs := fun a c => by rw [hsub]; simp
      held := fun a c he => by cases he }

theorem joinStep_join (h : (reqJoin s a c now).result = .ok s') :
    JoinStep s s' (reqJoin s a c now).out none := by
  have hsub := subsOf_congr (reqJoin_ok h).1
  have hn := names_reqJoin h
  have hmem : ∀ d, d ∈ s'.names ↔ d ∈ s.names ∨ d = c := by
    intro d
    rw [hn]
    split
    · next hc =>
      refine ⟨Or.inl, ?_⟩
      rintro (hd | rfl)
      · exact hd
      · exact hc
    · rw [List.mem_append, List.mem_singleton]
  rw [reqJoin_out]
  refine ⟨congrArg (List.map Server.addr) (reqJoin_ok h).1, fun d hd => (hmem d).mpr (Or.inl hd),
    ?_, ?_, fun a c => by rw [hsub]; simp, fun a c he => by cases he⟩
  · intro d hd hold b hb
    rcases (hmem d).mp hd with hd | rfl
    · exact absurd hd hold
    · exact List.mem_map.mpr ⟨b, hb, rfl⟩
  · intro d hd
    obtain ⟨b, hb, rfl⟩ := List.mem_map.mp hd
    exact ⟨c, (hmem c).mpr (Or.inr rfl), b, hb, rfl⟩

theorem joinStep_servJoin (h : (reqServJoin s a c now).result = .ok s') :
    JoinStep s s' (reqServJoin s a c now).out (some (a, c)) := by
  rcases reqServJoin_cases s a c now with ⟨f, hf, -⟩ | ⟨srvr, srvr', s₁, hs, hj, rfl, hk⟩
  · rw [hf] at h
    cases h
  have haddr : srvr'.addr = a := (addr_noteJoin hj).trans (findServerAddress_some hs).2
  have hsub : ∀ t : ServerState, t.cnnctSrvrs = storeServer s.cnnctSrvrs a srvr' → ∀ b d,
      d ∈ t.subsOf b ↔ d ∈ s.subsOf b ∨ some (a, c) = some (b, d) := fun t ht b d => by
    rw [mem_subsOf_storeServer_noteJoin hs hj ht]
    simp [eq_comm]
  rcases hk with ⟨hc, hr, ho⟩ | ⟨hc, chnls, hadd, hr, ho⟩
  · rw [hr] at h
    cases h
    rw [ho]
    refine ⟨neighbours_storeServer haddr rfl, fun d hd => hd, fun d hd hold => absurd hd hold,
      fun d hd => absurd hd List.not_mem_nil, hsub _ rfl, fun b d he => ?_⟩
    cases he
    exact hc
  · rw [hr] at h
    cases h
    rw [ho]
    have hn : chnlNames chnls = s.names ++ [c] := chnlNames_addChnl hadd
    have hmem : ∀ d, d ∈ chnlNames chnls ↔ d ∈ s.names ∨ d = c := fun d => by
      rw [hn, List.mem_append, List.mem_singleton]
    refine ⟨neighbours_storeServer haddr rfl, fun d hd => (hmem d).mpr (Or.inl hd), ?_, ?_,
      hsub _ rfl, fun b d he => ?_⟩
    · intro d hd hold b hb
      rcases (hmem d).mp hd with hd | rfl
      · exact absurd hd hold
      · exact List.mem_map.mpr ⟨b, hb, rfl⟩
    · intro d hd
      obtain ⟨b, hb, rfl⟩ := List.mem_map.mp hd
      exact ⟨c, (hmem c).mpr (Or.inr rfl), b, hb, rfl⟩
    · cases he
      exact (hmem c).mpr (Or.inr rfl)

end OneServer

/-! ### One server moves -/

variable {ι : Type}

/-- Server `i` has gone from `s` to `s'` and sent `out`. Of the joins that were in flight at most
one is gone, the one that told the server `noted`. -/
structure Moved (T : Topology ι) (n n' : Net ι) (i : ι) (s s' : ServerState) (out : List Datagram)
    (noted : Option (Sockaddr × Name)) : Prop where
  before : n.node i = .running s
  after : n'.node i = .running s'
  others : ∀ j, j ≠ i → n'.node j = n.node j
  neighbours : s.neighbours = T.nbrAddrs i
  new : ∀ q ∈ n'.flight, q ∈ n.flight ∨ q ∈ packets (T.addr i) out
  sent : ∀ q ∈ packets (T.addr i) out, q ∈ n'.flight
  keep : ∀ u v c, n.JoinInFlight T u v c →
    n'.JoinInFlight T u v c ∨ (v = i ∧ noted = some (T.addr u, c))

section Moves

variable {T : Topology ι} {n n₀ n' : Net ι} {i u v : ι} {s s' : ServerState} {c : Name}
  {out : List Datagram} {noted : Option (Sockaddr × Name)}

theorem Moved.holds (h : Moved T n n' i s s' out noted) (hn : ∀ d ∈ s.names, d ∈ s'.names)
    (hc : n.Holds u c) : n'.Holds u c := by
  by_cases hu : u = i
  · subst hu
    rw [Net.holds_iff h.before] at hc
    rw [Net.holds_iff h.after]
    exact hn c hc
  · exact (Net.holds_congr (h.others u hu)).mpr hc

/-- What every running server is known to be, the server is after the step. -/
theorem Moved.running (h : Moved T n n' i s s' out noted)
    (hall : ∀ j, ∃ t, n.node j = .running t ∧ Sound t ∧ t.neighbours = T.nbrAddrs j)
    (hsound : Sound s') (hn : s'.neighbours = s.neighbours) (j : ι) :
    ∃ t, n'.node j = .running t ∧ Sound t ∧ t.neighbours = T.nbrAddrs j := by
  by_cases hj : j = i
  · subst hj
    exact ⟨s', h.after, hsound, hn.trans h.neighbours⟩
  · rw [h.others j hj]
    exact hall j

/-- What is announced to all neighbours is announced to each. -/
theorem Moved.announced (h : Moved T n n' i s s' out noted) (hu : u ∈ T.nbrs i)
    (hb : ∀ b ∈ s.neighbours, (⟨b, .s2s (.join c)⟩ : Datagram) ∈ out) :
    n'.JoinInFlight T i u c := by
  refine h.sent _ (mem_packets.mpr ⟨rfl, hb _ ?_⟩)
  rw [h.neighbours]
  exact Topology.mem_nbrAddrs.mpr hu

/-- A safe input moves its server, or a table overruns. -/
theorem Net.overrun_or_moved [DecidableEq ι] {inp : Input} (noted : Option (Sockaddr × Name))
    (hs : n.node i = .running s) (hnbrs : s.neighbours = T.nbrAddrs i) (h₀ : n₀.node = n.node)
    (hsafe : Safe Sound (react s inp)) (hfl : ∀ q ∈ n₀.flight, q ∈ n.flight)
    (hkeep : ∀ u v c, n.JoinInFlight T u v c →
      n₀.JoinInFlight T u v c ∨ (v = i ∧ noted = some (T.addr u, c))) :
    (n₀.act T.addr i inp).Overrun ∨
      ∃ s', (react s inp).result = .ok s' ∧ Sound s' ∧
        Moved T n (n₀.act T.addr i inp) i s s' (react s inp).out noted := by
  rcases Net.overrun_or_ok _ hs h₀ hsafe with ho | ⟨s', hr, hsound, hi, hne, hf⟩
  · exact Or.inl ho
  · refine Or.inr ⟨s', hr, hsound, hs, hi, hne, hnbrs, fun q hq => ?_, fun q hq => ?_,
      fun u v c hq => (hkeep u v c hq).imp_left fun hq => ?_⟩
    · rw [hf] at hq
      exact (List.mem_append.mp hq).imp_left (hfl q)
    · rw [hf]
      exact List.mem_append_right _ hq
    · rw [Net.JoinInFlight, hf]
      exact List.mem_append_left _ hq

/-- Taking a packet off the wires takes no join but the one it is. -/
theorem Net.JoinInFlight.take [DecidableEq ι] {p : Packet} (hq : n.JoinInFlight T u v c)
    (hd : p.dst = T.addr i) :
    (n.take p).JoinInFlight T u v c ∨ (v = i ∧ p.src = T.addr u ∧ p.msg = .join c) := by
  by_cases he : (⟨T.addr u, T.addr v, .join c⟩ : Packet) = p
  · rw [← he] at hd ⊢
    exact Or.inr ⟨T.addr.injective hd, rfl, rfl⟩
  · exact Or.inl ((List.mem_erase_of_ne he).mpr hq)

end Moves

/-! ### The network -/

/-- On every edge: what is held, what is announced, what is listed. -/
structure JoinInv (T : Topology ι) (n : Net ι) : Prop where
  running : ∀ i, ∃ s, n.node i = .running s ∧ Sound s ∧ s.neighbours = T.nbrAddrs i
  /-- Only joins are in flight, along the edges, of channels that their senders hold. -/
  flight : ∀ p ∈ n.flight, ∃ u v c, v ∈ T.nbrs u ∧ p = ⟨T.addr u, T.addr v, .join c⟩ ∧ n.Holds u c
  /-- What a server holds is listed by its neighbours, or will be. -/
  spread : ∀ u v c, v ∈ T.nbrs u → n.Holds u c →
    n.JoinInFlight T u v c ∨ n.Lists v (T.addr u) c
  /-- A neighbour lists no more than that. -/
  back : ∀ u v c, v ∈ T.nbrs u → n.Lists v (T.addr u) c → n.Holds u c
  /-- What a server lists for a neighbour it holds itself. -/
  listed : ∀ v a c, n.Lists v a c → n.Holds v c

theorem joinInv_start (T : Topology ι) (unset now : ι → ℤ) : JoinInv T (T.start unset now) := by
  have hs : ∀ i, (T.start unset now).node i =
      .running (ServerState.start (T.nbrAddrs i) (unset i) (now i)) := fun _ => rfl
  refine ⟨fun i => ⟨_, hs i, Sound.start _ _ _, neighbours_start⟩,
    fun p hp => absurd hp List.not_mem_nil, ?_, ?_, ?_⟩
  · intro u v c hv hc
    rw [Net.holds_iff (hs u), names_start, List.mem_singleton] at hc
    rw [Net.lists_iff (hs v), subsOf_start]
    exact Or.inr ⟨Topology.mem_nbrAddrs.mpr (T.symm u v hv), hc⟩
  · intro u v c _ hc
    rw [Net.lists_iff (hs v), subsOf_start] at hc
    rw [Net.holds_iff (hs u), names_start, List.mem_singleton]
    exact hc.2
  · intro v a c hc
    rw [Net.lists_iff (hs v), subsOf_start] at hc
    rw [Net.holds_iff (hs v), names_start, List.mem_singleton]
    exact hc.2

/-- **The step lemma**, for a server that ends well on an input which announces `noted`. -/
theorem JoinInv.act {T : Topology ι} {n n' : Net ι} {i : ι} {s s' : ServerState}
    {sent : List Datagram} {noted : Option (Sockaddr × Name)} (h : JoinInv T n)
    (hm : Moved T n n' i s s' sent noted) (hsound : Sound s') (hj : JoinStep s s' sent noted)
    (hnoted : ∀ a c, noted = some (a, c) → ∃ u, T.addr u = a ∧ i ∈ T.nbrs u ∧ n.Holds u c) :
    JoinInv T n' := by
  have hgrow : ∀ u c, n.Holds u c → n'.Holds u c := fun u c => hm.holds hj.names
  have hlist : ∀ v a c, n'.Lists v a c ↔ n.Lists v a c ∨ (v = i ∧ noted = some (a, c)) := by
    intro v a c
    by_cases hv : v = i
    · subst hv
      rw [Net.lists_iff hm.before, Net.lists_iff hm.after, hj.subs]
      simp
    · rw [Net.lists_congr (hm.others v hv)]
      simp [hv]
  refine ⟨hm.running h.running hsound hj.neighbours, ?_, ?_, ?_, ?_⟩
  · intro q hq
    rcases hm.new q hq with hq | hq
    · obtain ⟨u, v, c, hv, rfl, hc⟩ := h.flight q hq
      exact ⟨u, v, c, hv, rfl, hgrow u c hc⟩
    · obtain ⟨hsrc, hd⟩ := mem_packets.mp hq
      obtain ⟨c, hc, b, hb, he⟩ := hj.sent _ hd
      rw [hm.neighbours] at hb
      obtain ⟨v, hv, rfl⟩ := List.mem_map.mp hb
      obtain ⟨qs, qd, qm⟩ := q
      cases hsrc
      cases he
      exact ⟨i, v, c, hv, rfl, (Net.holds_iff hm.after).mpr hc⟩
  · intro u v c hv hc
    have hold : n.Holds u c → n'.JoinInFlight T u v c ∨ n'.Lists v (T.addr u) c := by
      intro hc
      rcases h.spread u v c hv hc with hfl | hls
      · exact (hm.keep u v c hfl).imp_right fun hk => (hlist _ _ _).mpr (Or.inr hk)
      · exact Or.inr ((hlist _ _ _).mpr (Or.inl hls))
    by_cases hu : u = i
    · subst hu
      rw [Net.holds_iff hm.after] at hc
      by_cases hcs : c ∈ s.names
      · exact hold ((Net.holds_iff hm.before).mpr hcs)
      · exact Or.inl (hm.announced hv (hj.new c hc hcs))
    · exact hold ((Net.holds_congr (hm.others u hu)).mp hc)
  · intro u v c hv hc
    rcases (hlist _ _ _).mp hc with hc | ⟨rfl, hn⟩
    · exact hgrow u c (h.back u v c hv hc)
    · obtain ⟨w, hw, -, hwc⟩ := hnoted _ _ hn
      rw [T.addr.injective hw] at hwc
      exact hgrow u c hwc
  · intro v a c hc
    rcases (hlist _ _ _).mp hc with hc | ⟨rfl, hn⟩
    · exact hgrow v c (h.listed v a c hc)
    · exact (Net.holds_iff hm.after).mpr (hj.held _ _ hn)

/-- Logins of clients, joins of clients that are logged in, and deliveries of joins. -/
def Net.joinsOnly (n : Net ι) : Action ι → Bool
  | .client _ _ (.login _) _ _ => true
  | .client i clientAddr (.join _) _ _ => n.loggedIn i clientAddr
  | .deliver _ p _ => p.msg.joinName.isSome
  | _ => false

/-- The step lemma for the inputs of `JoinStep`: the invariant is kept or a table has overrun. -/
theorem JoinInv.act_or_overrun [DecidableEq ι] {T : Topology ι} {n n₀ : Net ι} {i : ι}
    {s : ServerState} {inp : Input} (noted : Option (Sockaddr × Name)) (h : JoinInv T n)
    (hs : n.node i = .running s) (hnbrs : s.neighbours = T.nbrAddrs i) (h₀ : n₀.node = n.node)
    (hsafe : Safe Sound (react s inp))
    (hj : ∀ s', (react s inp).result = .ok s' → JoinStep s s' (react s inp).out noted)
    (hfl : ∀ q ∈ n₀.flight, q ∈ n.flight)
    (hkeep : ∀ u v c, n.JoinInFlight T u v c →
      n₀.JoinInFlight T u v c ∨ (v = i ∧ noted = some (T.addr u, c)))
    (hnoted : ∀ a c, noted = some (a, c) → ∃ u, T.addr u = a ∧ i ∈ T.nbrs u ∧ n.Holds u c) :
    (n₀.act T.addr i inp).Overrun ∨ JoinInv T (n₀.act T.addr i inp) := by
  rcases Net.overrun_or_moved noted hs hnbrs h₀ hsafe hfl hkeep with ho | ⟨s', hr, hsound, hm⟩
  · exact Or.inl ho
  · exact Or.inr (h.act hm hsound (hj s' hr) hnoted)

/-- **The step lemma for the network.** -/
theorem JoinInv.step [DecidableEq ι] {T : Topology ι} {n n' : Net ι} {a : Action ι}
    (h : JoinInv T n) (ha : n.joinsOnly a) (hst : Net.step T.addr n a = some n') :
    n'.Overrun ∨ JoinInv T n' := by
  cases a with
  | client i clientAddr rq drawn now =>
    obtain ⟨s, hs, hsound, hnbrs⟩ := h.running i
    cases hst
    cases rq with
    | login u =>
      exact h.act_or_overrun none hs hnbrs rfl hsound.reqLogin (fun s' => joinStep_login)
        (fun q hq => hq) (fun u v c hq => Or.inl hq) fun a c he => by cases he
    | join c =>
      have hu : (findUser s.allUsers clientAddr).isSome := by
        rw [← Net.loggedIn_iff hs]
        exact ha
      exact h.act_or_overrun none hs hnbrs rfl (hsound.reqJoin hu) (fun s' => joinStep_join)
        (fun q hq => hq) (fun u v c hq => Or.inl hq) fun a c he => by cases he
    | logout => cases ha
    | leave c => cases ha
    | say c t => cases ha
    | list => cases ha
    | who c => cases ha
    | other k => cases ha
  | deliver i p now =>
    obtain ⟨s, hs, hsound, hnbrs⟩ := h.running i
    simp only [Net.step] at hst
    split at hst
    case isFalse => cases hst
    next hp =>
    cases hst
    obtain ⟨u, v, c, hv, rfl, hc⟩ := h.flight p hp.1
    have hvi : v = i := T.addr.injective hp.2
    subst hvi
    have hmem : T.addr u ∈ s.neighbours := by
      rw [hnbrs]
      exact Topology.mem_nbrAddrs.mpr (T.symm u v hv)
    refine h.act_or_overrun (some (T.addr u, c)) hs hnbrs rfl (hsound.reqServJoin hmem)
      (fun s' => joinStep_servJoin) (fun q hq => List.mem_of_mem_erase hq) ?_ ?_
    · intro x y d hq
      refine (hq.take hp.2).imp_right ?_
      rintro ⟨hy, hsrc, hmsg⟩
      cases hmsg
      exact ⟨hy, congrArg (fun a => some (a, c)) hsrc⟩
    · intro a d he
      cases he
      exact ⟨u, rfl, hv, hc⟩
  | timeouts i now => cases ha
  | renewal i now => cases ha
  | lose p => cases ha
  | duplicate p => cases ha

/-- **Subscription propagation.** In every run from startup of logins, joins by logged-in clients
and deliveries of joins, in any order and over any network, as long as no table outgrows its size:
every server is running; what a server holds, its neighbours list for it or have a join in flight
for; and when nothing is in flight, a neighbour lists exactly what is held, and servers joined by a
path hold the same channels. -/
theorem subscriptions_propagate [DecidableEq ι] (T : Topology ι) (unset now : ι → ℤ)
    (acts : List (Action ι)) (n : Net ι)
    (h : Run (Net.step T.addr) (fun m a => m.joinsOnly a) (T.start unset now) acts n)
    (hcap : ¬ n.Overrun) :
    (∀ i, ∃ s, n.node i = .running s) ∧
      (∀ u v c, v ∈ T.nbrs u → n.Holds u c →
        n.JoinInFlight T u v c ∨ n.Lists v (T.addr u) c) ∧
      (n.flight = [] →
        (∀ u v c, v ∈ T.nbrs u → (n.Lists v (T.addr u) c ↔ n.Holds u c)) ∧
          ∀ u v, Relation.ReflTransGen (fun x y => y ∈ T.nbrs x) u v →
            ∀ c, n.Holds u c ↔ n.Holds v c) := by
  have hinv : n.Overrun ∨ JoinInv T n :=
    h.invariant (P := fun m => m.Overrun ∨ JoinInv T m)
      (fun m a m' hm ha hst => hm.elim (fun ho => Or.inl (ho.of_step hst)) fun hi => hi.step ha hst)
      (Or.inr (joinInv_start T unset now))
  have inv := hinv.resolve_left hcap
  refine ⟨fun i => ?_, inv.spread, fun hq => ?_⟩
  · obtain ⟨s, hs, -⟩ := inv.running i
    exact ⟨s, hs⟩
  have hiff : ∀ u v c, v ∈ T.nbrs u → (n.Lists v (T.addr u) c ↔ n.Holds u c) := by
    intro u v c hv
    refine ⟨inv.back u v c hv, fun hc => ?_⟩
    rcases inv.spread u v c hv hc with hf | hl
    · rw [Net.JoinInFlight, hq] at hf
      cases hf
    · exact hl
  refine ⟨hiff, fun u v huv c => ?_⟩
  have hedge : ∀ x y, y ∈ T.nbrs x → n.Holds x c → n.Holds y c := fun x y hy hx =>
    inv.listed y _ c ((hiff x y c hy).mpr hx)
  induction huv with
  | refl => exact Iff.rfl
  | tail _ hy ih => exact ih.trans ⟨hedge _ _ hy, hedge _ _ (T.symm _ _ hy)⟩

namespace Three

/-- A channel spreads along the line and comes back. -/
def spreadAcross : List (Action (Fin 3)) :=
  [request 0 (.login (username 0)) 0, request 0 (.join chnlX) 0, deliver 0 1 (.join chnlX),
    deliver 1 0 (.join chnlX), deliver 1 2 (.join chnlX), deliver 2 1 (.join chnlX)]

end Three

open Three in
/-- On the line, the other end holds the channel as well. -/
theorem subscriptions_propagate_on_line :
    ∃ n, Run (Net.step addr) (fun m a => m.joinsOnly a) lineStart spreadAcross n ∧
      n.flight = [] ∧ n.Holds 0 chnlX ∧ n.Holds 2 chnlX := by
  have h : (execute (Net.step addr) (fun m a => m.joinsOnly a) lineStart spreadAcross).any
      (fun n => n.flight = [] ∧ (∀ i, (n.node i).isRunning) ∧ n.Holds 0 chnlX) = true := by
    decide
  obtain ⟨n, hr, hn⟩ := exists_run_of_execute h
  obtain ⟨hq, hok, hx⟩ := of_decide_eq_true hn
  have hpath : Relation.ReflTransGen (fun x y => y ∈ line.nbrs x) 0 2 :=
    (Relation.ReflTransGen.single (b := 1) (by decide)).tail (by decide)
  have hprop := subscriptions_propagate line (fun _ => 0) (fun _ => 0) _ n hr
    (Net.not_overrun_of_isRunning hok)
  exact ⟨n, hr, hq, hx, ((hprop.2.2 hq).2 0 2 hpath chnlX).mp hx⟩

end DuckChat
