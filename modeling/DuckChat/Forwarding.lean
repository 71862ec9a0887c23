import DuckChat.Sound

/-!
# Nobody to forward to

A say from a neighbour goes to the local users, and to the other neighbours that list the channel.
Where that is nobody at all it is answered with a leave. `REQ_SERV_SAY` finds this out by counting:
no local users, and at most one neighbour that lists the channel. One neighbour is nobody else only
if it is the one that sent the say, and a neighbour that has left the channel may still send to it.

## Main definitions

* `ServerState.listeners` — the neighbours that list a channel
* `DropsForNobody`, `CountsSender` — a say is dropped only where there is nobody else
* `GivenToAll` — what is sent for a say that is not dropped

## Main results

* `dropsForNobody_iff` — it is, unless the one neighbour that is counted is not the sender
* `say_given_to_all` — what is not dropped reaches everybody it should, and that is somebody
-/

set_option autoImplicit false

namespace DuckChat

/-- The addresses of the neighbours that list a channel. -/
def ServerState.listeners (s : ServerState) (c : Name) : List Sockaddr :=
  (s.cnnctSrvrs.filter fun srvr => hasChannelServer srvr c).map Server.addr

section Listeners

variable {s : ServerState} {a b : Sockaddr} {c : Name} {m : SayS2S}

/-- `has_channel_servers` counts the listeners. -/
theorem hasChannelServers_eq_length (s : ServerState) (c : Name) :
    hasChannelServers s.cnnctSrvrs c = (s.listeners c).length := by
  rw [hasChannelServers, ServerState.listeners, List.length_map, List.countP_eq_length_filter]

theorem nodup_listeners (hnd : s.neighbours.Nodup) (c : Name) : (s.listeners c).Nodup :=
  (List.Sublist.map Server.addr List.filter_sublist).nodup hnd

theorem mem_listeners_iff (hnd : s.neighbours.Nodup) : b ∈ s.listeners c ↔ c ∈ s.subsOf b := by
  simp only [ServerState.listeners, List.mem_map, List.mem_filter, hasChannelServer_iff]
  constructor
  · rintro ⟨srvr, ⟨hm, hc⟩, rfl⟩
    rwa [subsOf_eq (findServerAddress_of_mem hnd hm)]
  · intro hc
    obtain ⟨srvr, hs⟩ := Option.isSome_iff_exists.mp
      (isSome_findServerAddress_iff.mpr (mem_neighbours_of_mem_subsOf hc))
    rw [subsOf_eq hs] at hc
    obtain ⟨hm, rfl⟩ := findServerAddress_some hs
    exact ⟨srvr, ⟨hm, hc⟩, rfl⟩

/-- A say is passed on to the listeners, the sender excepted. -/
theorem forwardPackets_eq (s : ServerState) (a : Sockaddr) (m : SayS2S) :
    forwardPackets s a m =
      ((s.listeners m.reqChannel).filter (· ≠ a)).map fun b => ⟨b, .s2s (.say m)⟩ := by
  have htest : ∀ srvr : Server,
      ((findChannelServer srvr m.reqChannel).isSome && !addrCmp srvr.addr a) =
        (decide (srvr.addr ≠ a) && hasChannelServer srvr m.reqChannel) := by
    intro srvr
    rw [Bool.eq_iff_iff]
    simp [isSome_findChannelServer_iff, ← Bool.not_eq_true, and_comm]
  rw [forwardPackets, ServerState.listeners, List.filter_map, List.map_map, List.filter_filter]
  simp only [htest]
  rfl

end Listeners

/-! ### Says that are dropped -/

/-- Where the answer is a leave and nothing is passed on, the channel has no local users, and no
neighbour but the sender lists it. -/
def DropsForNobody (s : ServerState) (a : Sockaddr) (m : SayS2S) : Prop :=
  ⟨a, .s2s (.leave m.reqChannel)⟩ ∈ (reqServSay s a m).out →
    (∀ b, ⟨b, .s2s (.say m)⟩ ∉ (reqServSay s a m).out) →
      s.usersOf m.reqChannel = [] ∧ ∀ b ∈ s.neighbours, b ≠ a → m.reqChannel ∉ s.subsOf b

/-- If the channel has no local users, and one neighbour lists it, then the sender does. -/
def CountsSender (s : ServerState) (a : Sockaddr) (c : Name) : Prop :=
  ∀ active ∈ findChannel s.channels c, active.numUsers = 0 →
    hasChannelServers s.cnnctSrvrs c = 1 → c ∈ s.subsOf a

section Dropping

variable {s : ServerState} {a b : Sockaddr} {m : SayS2S}

/-- **When a say is dropped**: a new one is answered with a leave exactly if the count says so. -/
theorem leave_mem_out_iff {active : Channel} (hnew : hasId s.recentIds m.id = .ok false)
    (hf : findChannel s.channels m.reqChannel = some active) :
    (⟨a, .s2s (.leave m.reqChannel)⟩ : Datagram) ∈ (reqServSay s a m).out ↔
      active.numUsers = 0 ∧ hasChannelServers s.cnnctSrvrs m.reqChannel ≤ 1 := by
  obtain ⟨ids, hids⟩ := exists_record_of_hasId hnew
  rw [reqServSay_new hnew hids hf]
  split
  · next hprune => exact iff_of_true (List.mem_singleton_self _) hprune
  · next hkeep =>
    refine iff_of_false (fun hmem => ?_) hkeep
    rcases Emit.mem_out_bind.mp hmem with hmem | ⟨-, -, hmem⟩
    · cases deliverLoop_out_text hmem
    · rw [forwardPackets_eq] at hmem
      obtain ⟨b, -, hb⟩ := List.mem_map.mp hmem
      cases hb

/-- A say that is dropped is not passed on. -/
theorem say_not_mem_out {active : Channel} (hnew : hasId s.recentIds m.id = .ok false)
    (hf : findChannel s.channels m.reqChannel = some active)
    (hprune : active.numUsers = 0 ∧ hasChannelServers s.cnnctSrvrs m.reqChannel ≤ 1) :
    (⟨b, .s2s (.say m)⟩ : Datagram) ∉ (reqServSay s a m).out := by
  obtain ⟨ids, hids⟩ := exists_record_of_hasId hnew
  rw [reqServSay_new hnew hids hf, if_pos hprune]
  intro hmem
  cases List.mem_singleton.mp hmem

/-- **A say is dropped only where there is nobody else to give it to**, unless the one neighbour
that lists its channel is another than the one it came from. -/
theorem dropsForNobody_iff (addrs : List Sockaddr) (s : ServerState) (a : Sockaddr) (m : SayS2S)
    (hs : Reachable addrs s) (hnd : addrs.Nodup) (hnew : hasId s.recentIds m.id = .ok false)
    (hc : m.reqChannel ∈ s.names) : DropsForNobody s a m ↔ CountsSender s a m.reqChannel := by
  rw [← hs.neighbours] at hnd
  obtain ⟨active, hf⟩ := Option.isSome_iff_exists.mp (isSome_findChannel_iff.mpr hc)
  have husers : s.usersOf m.reqChannel = active.entries := by rw [ServerState.usersOf, hf]
  rw [DropsForNobody, leave_mem_out_iff hnew hf, husers, CountsSender]
  constructor
  · rintro hdrops active' hf' h0 hone
    obtain rfl : active = active' := Option.some.inj (hf.symm.trans hf')
    obtain ⟨-, hnone⟩ := hdrops ⟨h0, Nat.le_of_eq hone⟩ fun b =>
      say_not_mem_out hnew hf ⟨h0, Nat.le_of_eq hone⟩
    rw [hasChannelServers_eq_length] at hone
    obtain ⟨b, hb⟩ := List.length_eq_one_iff.mp hone
    have hmem : m.reqChannel ∈ s.subsOf b :=
      (mem_listeners_iff hnd).mp (by rw [hb]; exact List.mem_singleton_self b)
    by_contra hnot
    refine hnone b (mem_neighbours_of_mem_subsOf hmem) ?_ hmem
    rintro rfl
    exact hnot hmem
  · rintro hcounts ⟨h0, hle⟩ -
    refine ⟨entries_eq_nil h0, fun b _ hne hb => ?_⟩
    -- the one listener is `b`, and then it is the sender
    rw [← mem_listeners_iff hnd] at hb
    rw [hasChannelServers_eq_length] at hle
    have hone : (s.listeners m.reqChannel).length = 1 := by
      have := List.length_pos_of_mem hb
      omega
    have ha : a ∈ s.listeners m.reqChannel :=
      (mem_listeners_iff hnd).mpr
        (hcounts active hf h0 ((hasChannelServers_eq_length s m.reqChannel).trans hone))
    obtain ⟨x, hx⟩ := List.length_eq_one_iff.mp hone
    rw [hx] at ha hb
    exact hne ((List.mem_singleton.mp hb).trans (List.mem_singleton.mp ha).symm)

end Dropping

namespace Three

/-- What the server in the middle of the line is given to pass on. -/
def passing (c : Name) : SayS2S := ⟨1, username 0, c, hello⟩

/-- The middle of the line after server 0 has left Common. -/
def deserted : ServerState :=
  { ServerState.start (line.nbrAddrs 1) 0 0 with
    cnnctSrvrs := [(startServer (addr 0) 0).setNumChnnls 0, startServer (addr 2) 0] }

/-- The middle of the line after server 2 has left Common. -/
def withdrawn : ServerState :=
  { ServerState.start (line.nbrAddrs 1) 0 0 with
    cnnctSrvrs := [startServer (addr 0) 0, (startServer (addr 2) 0).setNumChnnls 0] }

theorem reachable_withdrawn : Reachable (line.nbrAddrs 1) withdrawn :=
  (Reachable.start 0 0).step (.datagram (addr 2) (.s2s (.leave common)) 0 0) (by rfl)

theorem reachable_deserted : Reachable (line.nbrAddrs 1) deserted :=
  (Reachable.start 0 0).step (.datagram (addr 0) (.s2s (.leave common)) 0 0) (by rfl)

end Three

open Three in
/-- Only server 0 lists Common, and what it says there is dropped. -/
theorem dropsForNobody_withdrawn :
    (reqServSay withdrawn (addr 0) (passing common)).out = [⟨addr 0, .s2s (.leave common)⟩] ∧
      DropsForNobody withdrawn (addr 0) (passing common) :=
  ⟨by rfl, (dropsForNobody_iff (line.nbrAddrs 1) withdrawn (addr 0) (passing common)
    reachable_withdrawn (by decide) (by decide) (by decide)).mpr fun _ _ _ _ => by decide⟩

open Three in
/-- Server 0 has left Common and says something there: server 2, which lists it, gets nothing. -/
theorem not_dropsForNobody_deserted :
    ¬ ∀ (addrs : List Sockaddr) (s : ServerState) (a : Sockaddr) (m : SayS2S),
        Reachable addrs s → addrs.Nodup → a ∈ addrs → hasId s.recentIds m.id = .ok false →
        m.reqChannel ∈ s.names → DropsForNobody s a m := by
  intro h
  have hdrops := h (line.nbrAddrs 1) deserted (addr 0) (passing common) reachable_deserted
    (by decide) (by decide) (by decide) (by decide)
  have hout : (reqServSay deserted (addr 0) (passing common)).out =
      [⟨addr 0, .s2s (.leave common)⟩] := by rfl
  rw [DropsForNobody, hout] at hdrops
  obtain ⟨-, hnone⟩ := hdrops (List.mem_singleton_self _) fun b hb => by
    cases List.mem_singleton.mp hb
  exact hnone (addr 2) (by decide) (by decide) (by decide)

/-! ### Says that are given on -/

section Giving

variable {s : ServerState} {heap : List User} {es : List (Option User)} {a : Sockaddr} {c : Name}

theorem textsTo_map_some (users : List User) (t : Text) :
    textsTo (users.map some) t = users.map fun u => ⟨u.address, .text t⟩ := by
  rw [textsTo, List.filterMap_map, ← List.filterMap_eq_map]
  rfl

/-- Of two neighbours that list a channel one is not the sender. -/
theorem exists_listener_ne (hnd : s.neighbours.Nodup) (h : 2 ≤ (s.listeners c).length) :
    ∃ b ∈ s.listeners c, b ≠ a := by
  by_contra hall
  have hsub : s.listeners c ⊆ [a] := by
    intro b hb
    by_contra hne
    exact hall ⟨b, hb, fun heq => hne (heq ▸ List.mem_singleton_self b)⟩
  have hle := ((nodup_listeners hnd c).subperm hsub).length_le
  rw [List.length_singleton] at hle
  omega

theorem length_listeners_le_one (hnd : s.neighbours.Nodup)
    (h : ∀ b ∈ s.neighbours, b ≠ a → c ∉ s.subsOf b) : (s.listeners c).length ≤ 1 := by
  by_contra hlt
  obtain ⟨b, hb, hne⟩ := exists_listener_ne (a := a) hnd (Nat.lt_of_not_le hlt)
  rw [mem_listeners_iff hnd] at hb
  exact h b (mem_neighbours_of_mem_subsOf hb) hne hb

/-- Where a say is not dropped there is somebody to give it to. -/
theorem exists_recipient {active : Channel} {users : List User} (hnd : s.neighbours.Nodup)
    (h0 : 0 ≤ active.numUsers) (husers : active.entries = users.map some)
    (hkeep : ¬ (active.numUsers = 0 ∧ hasChannelServers s.cnnctSrvrs c ≤ 1)) :
    users ≠ [] ∨ (s.listeners c).filter (· ≠ a) ≠ [] := by
  by_cases hnil : users = []
  · have hzero : active.numUsers = 0 := by
      rw [numUsers_eq_length h0, husers, hnil]
      rfl
    have htwo : 2 ≤ (s.listeners c).length := by
      rw [← hasChannelServers_eq_length]
      exact Nat.lt_of_not_le fun hle => hkeep ⟨hzero, hle⟩
    obtain ⟨b, hb, hne⟩ := exists_listener_ne (a := a) hnd htwo
    exact Or.inr (List.ne_nil_of_mem (List.mem_filter.mpr ⟨hb, decide_eq_true hne⟩))
  · exact Or.inl hnil

end Giving

/-- A text for every entry of the channel, in order, and then a copy for every neighbour but the
sender that lists it; something is sent, and what changes is that the identifier is recorded. -/
def GivenToAll (s : ServerState) (a : Sockaddr) (m : SayS2S) (active : Channel) : Prop :=
  ∃ (users : List User) (ids : RecentIds), active.entries = users.map some ∧
    s.recentIds.record m.id = .ok ids ∧ ids.slots = s.recentIds.slots ++ [m.id] ∧
    (reqServSay s a m).out =
      (users.map fun u => ⟨u.address, .text (.say m.reqChannel m.reqUsername m.reqText)⟩) ++
        ((s.listeners m.reqChannel).filter (· ≠ a)).map (fun b => ⟨b, .s2s (.say m)⟩) ∧
    (reqServSay s a m).out ≠ [] ∧
    (reqServSay s a m).result = .ok { s with recentIds := ids }

/-- **A say that is not dropped is given to everybody**, and **a say for nobody is dropped.** -/
theorem say_given_to_all (s : ServerState) (a : Sockaddr) (m : SayS2S) (active : Channel)
    (hnd : s.neighbours.Nodup) (hsound : ∀ chnl ∈ s.channels.live, chnl.Sound s.heap)
    (hroom : s.recentIds.numIds < MAX_IDS) (hnew : m.id ∉ s.recentIds.slots)
    (hf : findChannel s.channels m.reqChannel = some active) :
    (⟨a, .s2s (.leave m.reqChannel)⟩ ∉ (reqServSay s a m).out → GivenToAll s a m active) ∧
      (active.entries = [] → (∀ b ∈ s.neighbours, b ≠ a → m.reqChannel ∉ s.subsOf b) →
        (reqServSay s a m).out = [⟨a, .s2s (.leave m.reqChannel)⟩]) := by
  obtain ⟨ids, hids, hslots, -⟩ := RecentIds.record_of_lt m.id hroom
  have hd : hasId s.recentIds m.id = .ok false :=
    hasId_eq_ok_false.mpr fun hseen => hseen.elim hnew (Nat.not_lt.mpr (Nat.le_of_lt hroom))
  obtain ⟨h0, hread⟩ := hsound active (findChannel_some hf).1
  rw [GivenToAll, reqServSay_eq hd hids hf hread]
  split
  · next hprune =>
    exact ⟨fun hnot => absurd (List.mem_singleton_self _) hnot, fun _ _ => rfl⟩
  · next hkeep =>
    constructor
    · intro _
      obtain ⟨users, husers⟩ := exists_users hread
      refine ⟨users, ids, husers, hids, hslots, ?_, ?_, rfl⟩
      · rw [husers, textsTo_map_some, forwardPackets_eq]
      · show textsTo _ _ ++ forwardPackets s a m ≠ []
        rw [husers, textsTo_map_some, forwardPackets_eq]
        rcases exists_recipient (a := a) hnd h0 husers hkeep with hne | hne
        · exact List.append_ne_nil_of_left_ne_nil (mt List.map_eq_nil_iff.mp hne) _
        · exact List.append_ne_nil_of_right_ne_nil _ (mt List.map_eq_nil_iff.mp hne)
    · intro hnil hnone
      have hzero : active.numUsers = 0 := by
        rw [numUsers_eq_length h0, hnil]
        rfl
      refine absurd ⟨hzero, ?_⟩ hkeep
      rw [hasChannelServers_eq_length]
      exact length_listeners_le_one hnd hnone

open Three in
/-- With a user in the middle of the line, a say from server 0 is given to the user and to server
2. -/
theorem say_given_to_all_withUser :
    (⟨addr 0, .s2s (.leave common)⟩ ∉ (reqServSay (withUser 1) (addr 0) (passing common)).out →
        GivenToAll (withUser 1) (addr 0) (passing common)
          ⟨common, Table.ofList [some (user 1)] one_le_MAX_USERS, 0⟩) ∧
      ([some (user 1)] = [] →
        (∀ b ∈ (withUser 1).neighbours, b ≠ addr 0 → common ∉ (withUser 1).subsOf b) →
        (reqServSay (withUser 1) (addr 0) (passing common)).out =
          [⟨addr 0, .s2s (.leave common)⟩]) :=
  say_given_to_all (withUser 1) (addr 0) (passing common)
    ⟨common, Table.ofList [some (user 1)] one_le_MAX_USERS, 0⟩ (by decide) (by decide) (by decide)
    (by decide) (by rfl)

end DuckChat
