import DuckChat.Subscription
import DuckChat.Trees

/-!
# Pruning and new joins

A server without users and with one subscribed neighbour answers a say with a leave, and the
neighbour stops listing the channel for it; but the server goes on holding the channel. When a join
then arrives from behind, it is not passed on, because the channel is not new, and the neighbour
never hears of it. Besides, a leave takes the last name off the neighbour's table, whichever channel
it is about.

What a run has to avoid is a matter of one edge: a server with a member of the channel, or with
another neighbour subscribed behind it, must be listed or have a join on the way.

## Main definitions

* `Effect` — what the requests of these runs have in common
* `Net.Concerned`, `PruneInv` — the invariant
* `Prunes` — a step of one server that keeps it
* `Net.saysAndJoins` — the actions of the runs considered
* `Net.keepsPaths` — the condition on the steps
* `Net.PathsListed` — members reach each other

## Main results

* `PruneInv.act`, `PruneInv.step` — the step lemmas
* `paths_listed`, `pruning_outlives_join`
-/

set_option autoImplicit false

namespace DuckChat

/-! ### One server -/

/-- Channels are only added. A new member's channel is announced, and so is a channel of which the
server hears for the first time. Of the subscriptions, one may be added and one may be dropped, the
last one of a neighbour. -/
structure Effect (s s' : ServerState) (out : List Datagram) (noted : Option (Sockaddr × Name))
    (popped : Option Sockaddr) : Prop where
  neighbours : s'.neighbours = s.neighbours
  names : ∀ c ∈ s.names, c ∈ s'.names
  sent : ∀ d ∈ out, (∃ t, d.payload = .text t) ∨ (d.dest ∈ s.neighbours ∧
    (∀ c, d.payload = .s2s (.join c) → c ∈ s'.names) ∧
    ∀ m, d.payload = .s2s (.say m) → m.reqChannel ∈ s.subsOf d.dest)
  member : ∀ c, s'.usersOf c ≠ [] →
    s.usersOf c ≠ [] ∨ ∀ b ∈ s.neighbours, ⟨b, .s2s (.join c)⟩ ∈ out
  news : ∀ a c, noted = some (a, c) →
    c ∈ s.names ∨ ∀ b ∈ s.neighbours, ⟨b, .s2s (.join c)⟩ ∈ out
  gained : ∀ a c, c ∈ s'.subsOf a → c ∈ s.subsOf a ∨ noted = some (a, c)
  kept : ∀ a c, c ∈ s.subsOf a →
    c ∈ s'.subsOf a ∨ (popped = some a ∧ (s.subsOf a).getLast? = some c)
  listed : ∀ a c, noted = some (a, c) → c ∈ s'.subsOf a
  single : noted = none ∨ popped = none

section OneServer

variable {s s' : ServerState} {a b : Sockaddr} {c d : Name} {now : ℤ}

/-- `create_user` and `remove_user` together leave the number of entries as it was. -/
theorem usersOf_ne_nil_of_reqLogin {u : Username} (h : (reqLogin s a u).result = .ok s')
    (hd : s'.usersOf d ≠ []) : s.usersOf d ≠ [] := by
  obtain ⟨-, -, -, -, ⟨-, hc⟩ | ⟨chnl, chnls, chnl', hl, ⟨mid, ret, hm, hr⟩, hc⟩⟩ := reqLogin_ok h
  · rwa [ServerState.usersOf, hc] at hd
  · have hmid := addUser_eq_ok_iff.mp hm
    have hname : chnl'.chnlName = chnl.chnlName := (removeUser_ok hr).1.trans hmid.2.2.2.2.1
    have hnum : chnl'.numUsers = chnl.numUsers := by
      have h₁ := (removeUser_ok hr).2.2.1
      have h₂ := hmid.2.2.2.1
      omega
    have hlen : chnl'.entries.length = chnl.entries.length := by
      have h₁ := chnl'.connectedUsers.length_live
      have h₂ := chnl.connectedUsers.length_live
      simp only [Channel.numUsers] at hnum
      rw [Channel.entries, Channel.entries, h₁, h₂, hnum]
    rw [ServerState.usersOf, findChannel, hc, Table.live_overwrite (by rw [hl]; rfl)] at hd
    rw [ServerState.usersOf, findChannel, hl]
    by_cases hcd : chnl.chnlName = d
    · rw [List.find?_cons_of_pos (by simp [chnlCmp, hname, hcd])] at hd
      rw [List.find?_cons_of_pos (by simp [chnlCmp, hcd])]
      simp only at hd ⊢
      rw [← List.length_pos_iff] at hd ⊢
      omega
    · rw [List.find?_cons_of_neg (by simp [chnlCmp, hname, hcd])] at hd
      rwa [List.find?_cons_of_neg (by simp [chnlCmp, hcd])]

/-- A channel that is created by a server has no entries. -/
theorem usersOf_ne_nil_of_reqServJoin (h : (reqServJoin s a c now).result = .ok s')
    (hd : s'.usersOf d ≠ []) : s.usersOf d ≠ [] := by
  obtain ⟨_, srvr', chnls, -, -, ⟨-, rfl⟩ | ⟨hc, hadd⟩, rfl⟩ := reqServJoin_ok h
  · exact hd
  · by_cases hdc : d = c
    · subst hdc
      rw [ServerState.usersOf, findChannel_addChnl_self hadd hc] at hd
      exact absurd rfl hd
    · rw [ServerState.usersOf, findChannel_addChnl_of_ne hadd hdc] at hd
      exact hd

/-- Joins drop nothing. -/
theorem JoinStep.effect {sent : List Datagram} {noted : Option (Sockaddr × Name)}
    (h : JoinStep s s' sent noted)
    (hm : ∀ c, s'.usersOf c ≠ [] →
      s.usersOf c ≠ [] ∨ ∀ b ∈ s.neighbours, ⟨b, .s2s (.join c)⟩ ∈ sent) :
    Effect s s' sent noted none where
  neighbours := h.neighbours
  names := h.names
  sent d hd := by
    obtain ⟨c, hc, b, hb, rfl⟩ := h.sent d hd
    refine Or.inr ⟨hb, fun c' he => ?_, fun m he => by cases he⟩
    cases he
    exact hc
  member := hm
  news a c hn := by
    by_cases hc : c ∈ s.names
    · exact Or.inl hc
    · exact Or.inr (h.new c (h.held a c hn) hc)
  gained a c hc := (h.subs a c).mp hc
  kept a c hc := Or.inl ((h.subs a c).mpr (Or.inl hc))
  listed a c hn := (h.subs a c).mpr (Or.inr hn)
  single := Or.inr rfl

theorem effect_login {u : Username} (h : (reqLogin s a u).result = .ok s') :
    Effect s s' (reqLogin s a u).out none none :=
  (joinStep_login h).effect fun _ hc => Or.inl (usersOf_ne_nil_of_reqLogin h hc)

theorem effect_join (h : (reqJoin s a c now).result = .ok s') :
    Effect s s' (reqJoin s a c now).out none none := by
  refine (joinStep_join h).effect fun d hd => ?_
  by_cases hdc : d = c
  · subst hdc
    rw [reqJoin_out]
    exact Or.inr fun b hb => List.mem_map.mpr ⟨b, hb, rfl⟩
  · rw [usersOf_reqJoin h, if_neg hdc] at hd
    exact Or.inl hd

theorem effect_servJoin (h : (reqServJoin s a c now).result = .ok s') :
    Effect s s' (reqServJoin s a c now).out (some (a, c)) none :=
  (joinStep_servJoin h).effect fun _ hc => Or.inl (usersOf_ne_nil_of_reqServJoin h hc)

/-- Steps that change no table. -/
theorem Effect.of_eq {sent : List Datagram} (hc : s'.channels = s.channels)
    (hs : s'.cnnctSrvrs = s.cnnctSrvrs)
    (hsent : ∀ d ∈ sent, (∃ t, d.payload = .text t) ∨ (d.dest ∈ s.neighbours ∧
      (∀ c, d.payload = .s2s (.join c) → c ∈ s'.names) ∧
      ∀ m, d.payload = .s2s (.say m) → m.reqChannel ∈ s.subsOf d.dest)) :
    Effect s s' sent none none where
  neighbours := congrArg (List.map Server.addr) hs
  names c h := by rwa [ServerState.names, hc]
  sent := hsent
  member c h := Or.inl (by rwa [ServerState.usersOf, hc] at h)
  news a c h := by cases h
  gained a c h := Or.inl (by rwa [subsOf_congr hs] at h)
  kept a c h := Or.inl (by rwa [subsOf_congr hs])
  listed a c h := by cases h
  single := Or.inl rfl

theorem effect_say {t : SayText} {drawn : Id} (hnd : s.neighbours.Nodup)
    (h : (reqSay s a c t drawn).result = .ok s') :
    Effect s s' (reqSay s a c t drawn).out none none := by
  rcases reqSay_cases s a c t drawn with ⟨f, hf, -⟩ | ⟨chnl, usr, ids, -, -, -, -, hok, ho⟩
  · rw [hf] at h
    cases h
  · rw [hok] at h
    cases h
    rw [ho]
    refine Effect.of_eq rfl rfl fun d hd => ?_
    rcases List.mem_append.mp hd with hd | hd
    · exact Or.inl (sayLoop_out_text hd)
    · obtain ⟨b, hb, rfl⟩ := (mem_sayPackets hnd).mp hd
      refine Or.inr ⟨mem_neighbours_of_mem_subsOf hb, fun c he => ?_, fun m he => ?_⟩
      · cases he
      · cases he
        exact hb

theorem effect_servSay {m : SayS2S} (hnd : s.neighbours.Nodup) (ha : a ∈ s.neighbours)
    (h : (reqServSay s a m).result = .ok s') : Effect s s' (reqServSay s a m).out none none := by
  have hleave : ∀ d ∈ [(⟨a, .s2s (.leave m.reqChannel)⟩ : Datagram)],
      (∃ t, d.payload = .text t) ∨ (d.dest ∈ s.neighbours ∧
        (∀ c, d.payload = .s2s (.join c) → c ∈ s'.names) ∧
        ∀ m, d.payload = .s2s (.say m) → m.reqChannel ∈ s.subsOf d.dest) := by
    intro d hd
    rw [List.mem_singleton.mp hd]
    refine Or.inr ⟨ha, ?_, ?_⟩
    · intro c he
      cases he
    · intro m' he
      cases he
  generalize hx : reqServSay s a m = r at h
  cases hx ▸ reqServSay_cases s a m with
  | fault f hf => rw [hf] at h; cases h
  | duplicate => cases h; exact Effect.of_eq rfl rfl hleave
  | prune => cases h; exact Effect.of_eq rfl rfl hleave
  | forward =>
    cases h
    refine Effect.of_eq rfl rfl fun d hd => ?_
    rcases List.mem_append.mp hd with hd | hd
    · exact Or.inl ⟨_, deliverLoop_out_text hd⟩
    · obtain ⟨b, -, hb, rfl⟩ := (mem_forwardPackets hnd).mp hd
      refine Or.inr ⟨mem_neighbours_of_mem_subsOf hb, fun c he => ?_, fun m he => ?_⟩
      · cases he
      · cases he
        exact hb

theorem effect_servLeave (h : (reqServLeave s a c).result = .ok s') :
    Effect s s' (reqServLeave s a c).out none (some a) := by
  obtain ⟨hc, -, hn, hsub⟩ := reqServLeave_ok h
  rw [(reqServLeave_cases s a c).1]
  refine ⟨hn, fun d hd => by rwa [ServerState.names, hc], fun d hd => absurd hd List.not_mem_nil,
    fun d hd => Or.inl (by rwa [ServerState.usersOf, hc] at hd), ?_, fun b d hd => ?_,
    fun b d hd => ?_, ?_, Or.inl rfl⟩
  · intro b d he
    cases he
  · rw [hsub] at hd
    split at hd
    · next hb =>
      rw [hb]
      exact Or.inl (List.mem_of_mem_dropLast hd)
    · exact Or.inl hd
  · rw [hsub]
    split
    · next hb =>
      subst hb
      have hne : s.subsOf b ≠ [] := List.ne_nil_of_mem hd
      rw [← List.dropLast_append_getLast hne] at hd
      rcases List.mem_append.mp hd with hd | hd
      · exact Or.inl hd
      · rw [List.mem_singleton.mp hd]
        exact Or.inr ⟨rfl, List.getLast?_eq_some_getLast hne⟩
    · exact Or.inl hd
  · intro b d he
    cases he

end OneServer

/-! ### The network -/

variable {ι : Type}

/-- Says from the side of neighbour `u` matter to server `z`: it has a member, or lists the channel
for another neighbour. -/
def Net.Concerned (T : Topology ι) (n : Net ι) (z u : ι) (c : Name) : Prop :=
  n.hasMember z c = true ∨ ∃ y ∈ T.nbrs z, y ≠ u ∧ n.Lists z (T.addr y) c

instance [DecidableEq ι] (T : Topology ι) (n : Net ι) (z u : ι) (c : Name) :
    Decidable (n.Concerned T z u c) :=
  inferInstanceAs (Decidable (_ ∨ _))

/-- A server that is concerned is listed, or has a join on the way. -/
structure PruneInv (T : Topology ι) (n : Net ι) : Prop where
  running : ∀ i, ∃ s, n.node i = .running s ∧ Sound s ∧ s.neighbours = T.nbrAddrs i
  /-- Packets go along the edges; a join's sender and a say's receiver hold the channel. -/
  flight : ∀ p ∈ n.flight, ∃ u v, v ∈ T.nbrs u ∧ p.src = T.addr u ∧ p.dst = T.addr v ∧
    (∀ c, p.msg = .join c → n.Holds u c) ∧ ∀ m, p.msg = .say m → n.Holds v m.reqChannel
  /-- What is listed for a neighbour, the neighbour holds. -/
  back : ∀ u v c, v ∈ T.nbrs u → n.Lists v (T.addr u) c → n.Holds u c
  upward : ∀ z u c, u ∈ T.nbrs z → n.Concerned T z u c →
    n.JoinInFlight T z u c ∨ n.Lists u (T.addr z) c

theorem pruneInv_start (T : Topology ι) (unset now : ι → ℤ) : PruneInv T (T.start unset now) := by
  have hs : ∀ i, (T.start unset now).node i =
      .running (ServerState.start (T.nbrAddrs i) (unset i) (now i)) := fun _ => rfl
  refine ⟨fun i => ⟨_, hs i, Sound.start _ _ _, neighbours_start⟩,
    fun p hp => absurd hp List.not_mem_nil, ?_, ?_⟩
  · intro u v c _ hc
    rw [Net.lists_iff (hs v), subsOf_start] at hc
    rw [Net.holds_iff (hs u), names_start, List.mem_singleton]
    exact hc.2
  · intro z u c hu hc
    refine Or.inr ?_
    rw [Net.lists_iff (hs u), subsOf_start]
    refine ⟨Topology.mem_nbrAddrs.mpr (T.symm z u hu), ?_⟩
    rcases hc with hm | ⟨y, -, -, hl⟩
    · rw [Net.hasMember_iff (hs z)] at hm
      by_contra hne
      have hnone : findChannel (ServerState.start (T.nbrAddrs z) (unset z) (now z)).channels c =
          none := by
        rw [findChannel_eq_none_iff]
        intro hmem
        exact hne (List.mem_singleton.mp hmem)
      rw [ServerState.usersOf, hnone] at hm
      exact hm rfl
    · rw [Net.lists_iff (hs z), subsOf_start] at hl
      exact hl.2

/-- A step that keeps the paths. A join that is noted was sent by a neighbour that holds the
channel, and if it is not passed on, the other neighbours have heard already. A name that is dropped
is one for which the sender of the leave is not concerned or has a join on the way. -/
structure Prunes (T : Topology ι) (n n' : Net ι) (i : ι) (s s' : ServerState) (out : List Datagram)
    (noted : Option (Sockaddr × Name)) (popped : Option Sockaddr) : Prop
    extends Moved T n n' i s s' out noted where
  effect : Effect s s' out noted popped
  heard : ∀ a c, noted = some (a, c) → ∃ u, T.addr u = a ∧ i ∈ T.nbrs u ∧ n.Holds u c ∧
    (n.Holds i c → n.Lists i a c ∨ ∀ w ∈ T.nbrs i, w ≠ u →
      n.JoinInFlight T i w c ∨ n.Lists w (T.addr i) c)
  dropped : ∀ a c, popped = some a → (s.subsOf a).getLast? = some c →
    ∀ z, T.addr z = a → n.JoinInFlight T z i c ∨ ¬ n.Concerned T z i c

section Step

variable {T : Topology ι} {n n' : Net ι} {i u v z : ι} {s s' : ServerState} {c : Name}
  {out : List Datagram} {noted : Option (Sockaddr × Name)} {popped : Option Sockaddr}

/-- A join in flight stays there or is noted. -/
theorem Prunes.arrive (hp : Prunes T n n' i s s' out noted popped)
    (hj : n.JoinInFlight T u v c) : n'.JoinInFlight T u v c ∨ n'.Lists v (T.addr u) c := by
  refine (hp.keep u v c hj).imp_right ?_
  rintro ⟨rfl, hn⟩
  exact (Net.lists_iff hp.after).mpr (hp.effect.listed _ _ hn)

/-- A listing that is there stays, unless it is the one dropped. -/
theorem Prunes.lists (hp : Prunes T n n' i s s' out noted popped) (hc : n.Lists v (T.addr u) c) :
    n'.Lists v (T.addr u) c ∨
      (v = i ∧ popped = some (T.addr u) ∧ (s.subsOf (T.addr u)).getLast? = some c) := by
  by_cases hv : v = i
  · subst hv
    rw [Net.lists_iff hp.before] at hc
    exact (hp.effect.kept _ _ hc).imp (Net.lists_iff hp.after).mpr fun h => ⟨rfl, h⟩
  · exact Or.inl ((Net.lists_congr (hp.others v hv)).mpr hc)

/-- For a server that was concerned nothing gets worse. -/
theorem PruneInv.persist (h : PruneInv T n) (hp : Prunes T n n' i s s' out noted popped)
    (hu : u ∈ T.nbrs z) (hc : n.Concerned T z u c) :
    n'.JoinInFlight T z u c ∨ n'.Lists u (T.addr z) c := by
  rcases h.upward z u c hu hc with hj | hl
  · exact hp.arrive hj
  · rcases hp.lists hl with hl | ⟨rfl, hpop, hlast⟩
    · exact Or.inr hl
    · rcases hp.dropped _ c hpop hlast z rfl with hj | hnot
      · exact hp.arrive hj
      · exact absurd hc hnot

/-- The join of `y` is passed on to `u`, or `u` has heard of the channel before. -/
theorem PruneInv.pass (h : PruneInv T n) (hp : Prunes T n n' i s s' out noted popped) {y : ι}
    (hu : u ∈ T.nbrs i) (hy : y ∈ T.nbrs i) (hyu : y ≠ u) (hn : noted = some (T.addr y, c)) :
    n'.JoinInFlight T i u c ∨ n'.Lists u (T.addr i) c := by
  rcases hp.effect.news _ _ hn with hold | hb
  · obtain ⟨x, hx, -, -, hrest⟩ := hp.heard _ _ hn
    cases T.addr.injective hx
    rcases hrest ((Net.holds_iff hp.before).mpr hold) with hl | hall
    · exact h.persist hp hu (Or.inr ⟨y, hy, hyu, hl⟩)
    · rcases hall u hu hyu.symm with hj | hl
      · exact hp.arrive hj
      · rcases hp.lists hl with hl | ⟨-, hpop, -⟩
        · exact Or.inr hl
        · rcases hp.effect.single with h0 | h0
          · rw [h0] at hn
            cases hn
          · rw [h0] at hpop
            cases hpop
  · exact Or.inl (hp.announced hu hb)

/-- **The step lemma**, for a server that ends well. -/
theorem PruneInv.act (h : PruneInv T n) (hp : Prunes T n n' i s s' out noted popped)
    (hsound : Sound s') : PruneInv T n' := by
  have he := hp.effect
  have hgrow : ∀ u c, n.Holds u c → n'.Holds u c := fun u c => hp.holds he.names
  refine ⟨hp.running h.running hsound he.neighbours, ?_, ?_, ?_⟩
  · intro q hq
    rcases hp.new q hq with hq | hq
    · obtain ⟨u, v, hv, hsrc, hdst, hj, hm⟩ := h.flight q hq
      exact ⟨u, v, hv, hsrc, hdst, fun c hc => hgrow u c (hj c hc),
        fun m hm' => hgrow v _ (hm m hm')⟩
    · obtain ⟨hsrc, hd⟩ := mem_packets.mp hq
      rcases he.sent _ hd with ⟨t, ht⟩ | ⟨hdst, hj, hm⟩
      · cases ht
      · rw [hp.neighbours] at hdst
        obtain ⟨v, hv, hva⟩ := List.mem_map.mp hdst
        refine ⟨i, v, hv, hsrc, hva.symm, fun c hc => ?_, fun m hm' => ?_⟩
        · exact (Net.holds_iff hp.after).mpr (hj c (congrArg Payload.s2s hc))
        · have hl := hm m (congrArg Payload.s2s hm')
          rw [← hva] at hl
          exact hgrow v _ (h.back v i _ (T.symm i v hv) ((Net.lists_iff hp.before).mpr hl))
  · intro u v c hv hc
    by_cases hvi : v = i
    · subst hvi
      rw [Net.lists_iff hp.after] at hc
      rcases he.gained _ _ hc with hc | hn
      · exact hgrow u c (h.back u v c hv ((Net.lists_iff hp.before).mpr hc))
      · obtain ⟨w, hw, -, hwc, -⟩ := hp.heard _ _ hn
        rw [T.addr.injective hw] at hwc
        exact hgrow u c hwc
    · exact hgrow u c (h.back u v c hv ((Net.lists_congr (hp.others v hvi)).mp hc))
  · intro z u c hu hc
    by_cases hz : z = i
    · subst hz
      rcases hc with hm | ⟨y, hy, hyu, hl⟩
      · rw [Net.hasMember_iff hp.after] at hm
        rcases he.member c hm with hm | hb
        · exact h.persist hp hu (Or.inl ((Net.hasMember_iff hp.before).mpr hm))
        · exact Or.inl (hp.announced hu hb)
      · rw [Net.lists_iff hp.after] at hl
        rcases he.gained _ _ hl with hl | hn
        · exact h.persist hp hu (Or.inr ⟨y, hy, hyu, (Net.lists_iff hp.before).mpr hl⟩)
        · exact h.pass hp hu hy hyu hn
    · refine h.persist hp hu ?_
      rcases hc with hm | ⟨y, hy, hyu, hl⟩
      · rw [Net.hasMember_congr (hp.others z hz)] at hm
        exact Or.inl hm
      · exact Or.inr ⟨y, hy, hyu, (Net.lists_congr (hp.others z hz)).mp hl⟩

end Step

/-! ### The runs -/

/-- Logins, joins of clients that are logged in, says of members, and deliveries. -/
def Net.saysAndJoins (n : Net ι) : Action ι → Bool
  | .client _ _ (.login _) _ _ => true
  | .client i clientAddr (.join _) _ _ => n.loggedIn i clientAddr
  | .client i clientAddr (.say c _) _ _ => n.isMember i clientAddr c
  | .deliver _ _ _ => true
  | _ => false

/-- The name that a leave takes off the table for a neighbour. -/
def Net.lastListed (n : Net ι) (i : ι) (a : Sockaddr) : Option Name :=
  match n.node i with
  | .running s => (s.subsOf a).getLast?
  | .faulted _ => none

/-- The condition on a delivery. A join that is news from the sender, but not a new channel, is not
passed on: every other neighbour must have the channel listed or a join on its way. And the name
that a leave takes off must be one for which the sender is not concerned, or sends a join. -/
def Net.keepsPaths [DecidableEq ι] (T : Topology ι) (n : Net ι) : Action ι → Bool
  | .deliver i p _ =>
      match p.msg with
      | .join c => n.Holds i c → n.Lists i p.src c ∨ ∀ w ∈ T.nbrs i, T.addr w ≠ p.src →
          n.JoinInFlight T i w c ∨ n.Lists w (T.addr i) c
      | .leave _ => (n.lastListed i p.src).any fun c =>
          ∀ z ∈ T.nbrs i, T.addr z = p.src → n.JoinInFlight T z i c ∨ ¬ n.Concerned T z i c
      | .say _ => true
  | _ => true

/-- Between two servers with members, every server on the way lists the channel for the next
one. -/
def Net.PathsListed (T : Topology ι) (n : Net ι) : Prop :=
  ∀ (c : Name) (u v : ι) (p : T.graph.Walk u v), p.IsPath → n.hasMember u c = true →
    n.hasMember v c = true → ∀ d ∈ p.darts, n.Lists d.fst (T.addr d.snd) c

section Runs

variable [DecidableEq ι] {T : Topology ι} {n n₀ n' : Net ι} {i : ι} {s : ServerState}

/-- The step lemma for an input: the invariant is kept or a table has overrun. -/
theorem PruneInv.act_or_overrun {inp : Input} (noted : Option (Sockaddr × Name))
    (popped : Option Sockaddr) (h : PruneInv T n) (hs : n.node i = .running s)
    (hnbrs : s.neighbours = T.nbrAddrs i) (h₀ : n₀.node = n.node)
    (hsafe : Safe Sound (react s inp))
    (he : ∀ s', (react s inp).result = .ok s' → Effect s s' (react s inp).out noted popped)
    (hfl : ∀ q ∈ n₀.flight, q ∈ n.flight)
    (hkeep : ∀ u v c, n.JoinInFlight T u v c →
      n₀.JoinInFlight T u v c ∨ (v = i ∧ noted = some (T.addr u, c)))
    (hheard : ∀ a c, noted = some (a, c) → ∃ u, T.addr u = a ∧ i ∈ T.nbrs u ∧ n.Holds u c ∧
      (n.Holds i c → n.Lists i a c ∨ ∀ w ∈ T.nbrs i, w ≠ u →
        n.JoinInFlight T i w c ∨ n.Lists w (T.addr i) c))
    (hdropped : ∀ a c, popped = some a → (s.subsOf a).getLast? = some c →
      ∀ z, T.addr z = a → n.JoinInFlight T z i c ∨ ¬ n.Concerned T z i c) :
    (n₀.act T.addr i inp).Overrun ∨ PruneInv T (n₀.act T.addr i inp) := by
  rcases Net.overrun_or_moved noted hs hnbrs h₀ hsafe hfl hkeep with ho | ⟨s', hr, hsound, hm⟩
  · exact Or.inl ho
  · exact Or.inr (h.act ⟨hm, he s' hr, hheard, hdropped⟩ hsound)

/-- An input that notes nothing and drops nothing. -/
theorem PruneInv.act_or_overrun_none {inp : Input} (h : PruneInv T n) (hs : n.node i = .running s)
    (hnbrs : s.neighbours = T.nbrAddrs i) (h₀ : n₀.node = n.node)
    (hsafe : Safe Sound (react s inp))
    (he : ∀ s', (react s inp).result = .ok s' → Effect s s' (react s inp).out none none)
    (hfl : ∀ q ∈ n₀.flight, q ∈ n.flight)
    (hkeep : ∀ u v c, n.JoinInFlight T u v c → n₀.JoinInFlight T u v c) :
    (n₀.act T.addr i inp).Overrun ∨ PruneInv T (n₀.act T.addr i inp) := by
  refine h.act_or_overrun none none hs hnbrs h₀ hsafe he hfl
    (fun u v c hq => Or.inl (hkeep u v c hq)) ?_ ?_
  · intro a c hn
    cases hn
  · intro a c hn
    cases hn

/-- The request of a client. -/
theorem PruneInv.client {clientAddr : Sockaddr} {rq : ClientRequest} {drawn : Id} {now : ℤ}
    (h : PruneInv T n) (ha : n.saysAndJoins (.client i clientAddr rq drawn now)) :
    (n.act T.addr i (.datagram clientAddr (.client rq) drawn now)).Overrun ∨
      PruneInv T (n.act T.addr i (.datagram clientAddr (.client rq) drawn now)) := by
  obtain ⟨s, hs, hsound, hnbrs⟩ := h.running i
  have hnd : s.neighbours.Nodup := by
    rw [hnbrs]
    exact (T.nodup i).map T.addr.injective
  cases rq with
  | login u =>
    exact h.act_or_overrun_none hs hnbrs rfl hsound.reqLogin (fun s' => effect_login)
      (fun q hq => hq) fun u v c hq => hq
  | join c =>
    have hu : (findUser s.allUsers clientAddr).isSome := by
      rw [← Net.loggedIn_iff hs]
      exact ha
    exact h.act_or_overrun_none hs hnbrs rfl (hsound.reqJoin hu) (fun s' => effect_join)
      (fun q hq => hq) fun u v c hq => hq
  | say c t =>
    obtain ⟨chnl, v, hf, hv, hva⟩ := Net.exists_of_isMember hs ha
    exact h.act_or_overrun_none hs hnbrs rfl (hsound.reqSay hf hv hva) (fun s' => effect_say hnd)
      (fun q hq => hq) fun u v c hq => hq
  | logout => cases ha
  | leave c => cases ha
  | list => cases ha
  | who c => cases ha
  | other k => cases ha

/-- The delivery of a packet. -/
theorem PruneInv.deliver {p : Packet} {now : ℤ} (h : PruneInv T n) (hp : p ∈ n.flight)
    (hd : p.dst = T.addr i) (hg : n.keepsPaths T (.deliver i p now)) :
    ((n.take p).act T.addr i (.datagram p.src (.s2s p.msg) 0 now)).Overrun ∨
      PruneInv T ((n.take p).act T.addr i (.datagram p.src (.s2s p.msg) 0 now)) := by
  obtain ⟨s, hs, hsound, hnbrs⟩ := h.running i
  obtain ⟨u, v, hv, hsrc, hdst, hj, hm⟩ := h.flight p hp
  have hvi : v = i := T.addr.injective (hdst.symm.trans hd)
  subst hvi
  have hmem : p.src ∈ s.neighbours := by
    rw [hsrc, hnbrs]
    exact Topology.mem_nbrAddrs.mpr (T.symm u v hv)
  have hfl : ∀ q ∈ (n.take p).flight, q ∈ n.flight := fun q hq => List.mem_of_mem_erase hq
  rw [Net.keepsPaths] at hg
  cases hmsg : p.msg with
  | join c =>
    rw [hmsg] at hg
    refine h.act_or_overrun (some (p.src, c)) none hs hnbrs rfl (hsound.reqServJoin hmem)
      (fun s' => effect_servJoin) hfl ?_ ?_ ?_
    · intro x y d hq
      refine (hq.take hd).imp_right ?_
      rintro ⟨hy, hx, hmsg'⟩
      rw [hmsg] at hmsg'
      cases hmsg'
      exact ⟨hy, by rw [hx]⟩
    · intro a d he
      cases he
      refine ⟨u, hsrc.symm, hv, hj c hmsg, fun hold => ?_⟩
      refine (of_decide_eq_true hg hold).imp_right fun hall w hw hwu => hall w hw fun he => hwu ?_
      exact T.addr.injective (he.trans hsrc)
    · intro a d he
      cases he
  | leave c =>
    rw [hmsg] at hg
    obtain ⟨d, hd', hok⟩ := (Option.any_eq_true ..).mp hg
    have hlast : (s.subsOf p.src).getLast? = some d := by
      rw [Net.lastListed, hs] at hd'
      exact hd'
    have hne : s.subsOf p.src ≠ [] := by
      intro hnil
      rw [hnil] at hlast
      cases hlast
    obtain ⟨t, hr, ht⟩ := hsound.reqServLeave (c := c) hmem hne
    refine h.act_or_overrun none (some p.src) hs hnbrs rfl (Emit.Post.of_ok hr ht)
      (fun s' => effect_servLeave) hfl ?_ ?_ ?_
    · intro x y d hq
      refine Or.inl ((hq.take hd).resolve_right fun hj => ?_)
      rw [hmsg] at hj
      cases hj.2.2
    · intro a d he
      cases he
    · intro a e he hlast' z hz
      cases he
      cases hlast.symm.trans hlast'
      refine of_decide_eq_true hok z ?_ hz
      rw [T.addr.injective (hz.trans hsrc)]
      exact T.symm u v hv
  | say m =>
    have hc : m.reqChannel ∈ s.names := (Net.holds_iff hs).mp (hm m hmsg)
    have hnd : s.neighbours.Nodup := by
      rw [hnbrs]
      exact (T.nodup v).map T.addr.injective
    refine h.act_or_overrun_none hs hnbrs rfl (hsound.reqServSay hc)
      (fun s' => effect_servSay hnd hmem) hfl fun x y d hq => ?_
    refine (hq.take hd).resolve_right fun hj => ?_
    rw [hmsg] at hj
    cases hj.2.2

/-- **The step lemma for the network.** -/
theorem PruneInv.step {a : Action ι} (h : PruneInv T n) (ha : n.saysAndJoins a)
    (hg : n.keepsPaths T a) (hst : Net.step T.addr n a = some n') : n'.Overrun ∨ PruneInv T n' := by
  cases a with
  | client i clientAddr rq drawn now =>
    cases hst
    exact h.client ha
  | deliver i p now =>
    simp only [Net.step] at hst
    split at hst
    · next hp =>
      cases hst
      exact h.deliver hp.1 hp.2 hg
    · cases hst
  | timeouts i now => cases ha
  | renewal i now => cases ha
  | lose p => cases ha
  | duplicate p => cases ha

end Runs

/-- With nothing in flight, a path that ends at a member is listed from its start on. -/
theorem PruneInv.pathsListed {T : Topology ι} {n : Net ι} (h : PruneInv T n)
    (hq : n.flight = []) : n.PathsListed T := by
  have hup : ∀ z u c, u ∈ T.nbrs z → n.Concerned T z u c → n.Lists u (T.addr z) c := by
    intro z u c hu hc
    rcases h.upward z u c hu hc with hj | hl
    · rw [Net.JoinInFlight, hq] at hj
      cases hj
    · exact hl
  intro c u v p hp hu hv
  clear hu
  induction p with
  | nil =>
    intro d hd
    cases hd
  | @cons x y z hxy p ih =>
    obtain ⟨hp, hx⟩ := (SimpleGraph.Walk.cons_isPath_iff hxy p).mp hp
    -- `y` is concerned on account of the rest of the path
    have hy : n.Concerned T y x c := by
      cases p with
      | nil => exact Or.inl hv
      | @cons _ w _ hyw p =>
        refine Or.inr ⟨w, hyw.2, ?_, ih hp hv ⟨(y, w), hyw⟩ List.mem_cons_self⟩
        rintro rfl
        exact hx (List.mem_cons_of_mem _ p.start_mem_support)
    intro d hd
    rcases List.mem_cons.mp hd with rfl | hd
    · exact hup y x c (T.symm x y hxy.2) hy
    · exact ih hp hv d hd

/-- **New joins reach through.** In every run from startup of logins, joins of logged-in clients,
says of members and deliveries, each of which keeps the paths, as long as no table outgrows its
size: when nothing is in flight, every server between two members of a channel lists it for the next
one. -/
theorem paths_listed [DecidableEq ι] (T : Topology ι) (unset now : ι → ℤ) (acts : List (Action ι))
    (n : Net ι) (h : Run (Net.step T.addr) (fun m a => m.saysAndJoins a ∧ m.keepsPaths T a)
      (T.start unset now) acts n) (hcap : ¬ n.Overrun) (hq : n.flight = []) :
    n.PathsListed T := by
  have hinv : n.Overrun ∨ PruneInv T n :=
    h.invariant (P := fun m => m.Overrun ∨ PruneInv T m)
      (fun m a m' hm ha hst => hm.elim (fun ho => Or.inl (ho.of_step hst))
        fun hi => hi.step ha.1 ha.2 hst)
      (Or.inr (pruneInv_start T unset now))
  exact (hinv.resolve_left hcap).pathsListed hq

namespace Three

/-- The client of server 0 joins a channel, and everybody has heard of it. -/
def spreadX : List (Action (Fin 3)) :=
  [request 0 (.login (username 0)) 0, request 0 (.join chnlX) 0, deliver 0 1 (.join chnlX),
    deliver 1 0 (.join chnlX), deliver 1 2 (.join chnlX), deliver 2 1 (.join chnlX)]

/-- It says something; the other end has nobody to give it to and is pruned. -/
def pruneEnd : List (Action (Fin 3)) :=
  [request 0 (.say chnlX hello) 1, deliver 0 1 (sayBy 0 chnlX 1), deliver 1 2 (sayBy 0 chnlX 1),
    deliver 2 1 (.leave chnlX)]

/-- It says something again, and the middle is pruned as well. -/
def pruneMiddle : List (Action (Fin 3)) :=
  [request 0 (.say chnlX hello) 2, deliver 0 1 (sayBy 0 chnlX 2), deliver 1 0 (.leave chnlX)]

/-- A client at the other end joins. -/
def joinAtEnd : List (Action (Fin 3)) :=
  [request 2 (.login (username 2)) 0, request 2 (.join chnlX) 0, deliver 2 1 (.join chnlX)]

end Three

open Three in
/-- With the end pruned and the middle still listed, a new member at the end is reached. -/
theorem paths_listed_on_line :
    ∃ n, Run (Net.step addr) (fun m a => m.saysAndJoins a ∧ m.keepsPaths line a) lineStart
        (spreadX ++ pruneEnd ++ joinAtEnd) n ∧ n.flight = [] ∧ n.hasMember 2 chnlX ∧
      n.PathsListed line := by
  have h : (execute (Net.step addr) (fun m a => m.saysAndJoins a ∧ m.keepsPaths line a) lineStart
      (spreadX ++ pruneEnd ++ joinAtEnd)).any (fun n => n.flight = [] ∧ n.hasMember 2 chnlX ∧
        ∀ i, (n.node i).isRunning) = true := by
    decide
  obtain ⟨n, hr, hn⟩ := exists_run_of_execute h
  obtain ⟨hq, hm, hok⟩ := of_decide_eq_true hn
  exact ⟨n, hr, hq, hm, paths_listed line (fun _ => 0) (fun _ => 0) _ n hr
    (Net.not_overrun_of_isRunning hok) hq⟩

open Three in
/-- With the middle pruned too, the join of the new member is not passed on, and server 0 goes on
not listing the channel. -/
theorem pruning_outlives_join :
    line.IsTree ∧ ¬ ∀ (acts : List (Action (Fin 3))) (n : Net (Fin 3)),
        Run (Net.step addr) (fun m a => m.saysAndJoins a) lineStart acts n → ¬ n.Overrun →
          n.flight = [] → n.PathsListed line := by
  refine ⟨line_isTree, fun hall => ?_⟩
  have h : (execute (Net.step addr) (fun m a => m.saysAndJoins a) lineStart
      (spreadX ++ pruneEnd ++ pruneMiddle ++ joinAtEnd)).any (fun n => n.flight = [] ∧
        n.hasMember 0 chnlX ∧ n.hasMember 2 chnlX ∧ (∀ i, (n.node i).isRunning) ∧
        ¬ n.Lists 0 (addr 1) chnlX) = true := by
    decide
  obtain ⟨n, hr, hn⟩ := exists_run_of_execute h
  obtain ⟨hq, h0, h2, hok, hno⟩ := of_decide_eq_true hn
  let p : line.graph.Walk 0 2 := .cons (v := 1) (by decide) (.cons (by decide) .nil)
  have hp : p.IsPath := (SimpleGraph.Walk.isPath_def p).mpr (by decide)
  exact hno (hall _ n hr (Net.not_overrun_of_isRunning hok) hq chnlX 0 2 p hp h0 h2
    ⟨(0, 1), by decide⟩ List.mem_cons_self)

end DuckChat
