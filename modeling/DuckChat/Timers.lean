import DuckChat.Roster

/-!
# What the neighbours' tables list, and since when

A neighbour's record has two parallel arrays, the names it is subscribed to and the clock readings
of its joins, and three operations edit them: a join of a new name appends to both, a join of a
listed name overwrites one clock reading, and a leave or a timeout lowers the common counter. A
record after an input is one of these, which is all that the results here need of the handlers.

## Main definitions

* `ServerStep` — the record of a neighbour after an input
* `LastJoin` — the clock reading of the most recent join from a neighbour for a channel

## Main results

* `servers_of_react` — everything an input can do to a neighbour's record
* `Reachable.names_unique` — no channel and no subscription is listed twice
* `timers_in_step` — a timer is the clock reading of the last join for the name next to it
-/

set_option autoImplicit false

namespace DuckChat

/-! ### What an input can do to a record -/

/-- A join from a neighbour for a channel. -/
def Input.IsJoin (a : Sockaddr) (c : Name) (i : Input) : Prop :=
  ∃ drawn now, i = .datagram a (.s2s (.join c)) drawn now

/-- The records of the neighbours after an input. -/
inductive TablesStep (s : ServerState) : Input → List Server → Prop where
  | kept {i : Input} (hi : ∀ b c, ¬ i.IsJoin b c) : TablesStep s i s.cnnctSrvrs
  | joined {a : Sockaddr} {c : Name} {drawn : Id} {now : ℤ} {srvr srvr' : Server}
      (hs : findServerAddress s.cnnctSrvrs a = some srvr) (hj : noteJoin srvr c now = .ok srvr') :
      TablesStep s (.datagram a (.s2s (.join c)) drawn now) (storeServer s.cnnctSrvrs a srvr')
  | left {a : Sockaddr} {c : Name} {drawn : Id} {now : ℤ} {srvr : Server}
      (hs : findServerAddress s.cnnctSrvrs a = some srvr) (h0 : 0 ≤ srvr.numChnnls) :
      TablesStep s (.datagram a (.s2s (.leave c)) drawn now)
        (storeServer s.cnnctSrvrs a (srvr.setNumChnnls (srvr.numChnnls - 1)))
  | scanned {now : ℤ} {srvs' : List Server} (h : timeoutServers now s.cnnctSrvrs = .ok srvs') :
      TablesStep s (.timeouts now) srvs'

/-- The record of a neighbour after an input. One that no join has touched is only known not to be
the sender's where the addresses are distinct. -/
inductive ServerStep (s : ServerState) : Input → Server → Prop where
  | within {i : Input} {srvr srvr' : Server} (h : srvr ∈ s.cnnctSrvrs) (hw : srvr'.Within srvr)
      (hi : s.neighbours.Nodup → ∀ c, ¬ i.IsJoin srvr.addr c) : ServerStep s i srvr'
  | refreshed {c : Name} {drawn : Id} {now : ℤ} {srvr : Server} {pos : ℕ}
      (h : srvr ∈ s.cnnctSrvrs) (hp : findChannelServer srvr c = some pos) :
      ServerStep s (.datagram srvr.addr (.s2s (.join c)) drawn now) (refreshTimer srvr pos now)
  | added {c : Name} {drawn : Id} {now : ℤ} {srvr srvr' : Server} (h : srvr ∈ s.cnnctSrvrs)
      (hp : findChannelServer srvr c = none) (ha : addChSrv srvr c now = .ok srvr') :
      ServerStep s (.datagram srvr.addr (.s2s (.join c)) drawn now) srvr'

section Records

variable {s s' : ServerState} {i : Input} {srvr srvr' srvr'' : Server} {srvs srvs' : List Server}
  {a : Sockaddr} {c : Name} {now : ℤ}

/-- A record in a list of records, one of which was written: it is that one or another. -/
theorem mem_storeServer (haddr : srvr.addr = a) (h : srvr' ∈ storeServer srvs a srvr) :
    srvr' = srvr ∨ srvr' ∈ srvs ∧ ((srvs.map Server.addr).Nodup → srvr'.addr ≠ a) := by
  by_cases hnew : srvr' = srvr
  · exact Or.inl hnew
  refine Or.inr ⟨(mem_replaceFirst h).resolve_left hnew, fun hnd ha => hnew ?_⟩
  have hnd' : ((storeServer srvs a srvr).map Server.addr).Nodup := by
    rwa [map_addr_storeServer haddr]
  have hmem : srvr ∈ storeServer srvs a srvr := by
    have hin : a ∈ srvs.map Server.addr := by
      rw [← map_addr_storeServer haddr]
      exact List.mem_map.mpr ⟨srvr', h, ha⟩
    exact (findServerAddress_some (findServerAddress_storeServer_self haddr hin)).1
  exact List.inj_on_of_nodup_map hnd' h hmem (ha.trans haddr.symm)

/-- A list of records that did not change. -/
theorem ServerStep.of_cnnctSrvrs (h : s'.cnnctSrvrs = s.cnnctSrvrs)
    (hi : ∀ b d, ¬ i.IsJoin b d) : ∀ srvr ∈ s'.cnnctSrvrs, ServerStep s i srvr := by
  rw [h]
  exact fun srvr hm => .within hm (.refl _) fun _ d => hi _ d

theorem servers_noteJoin {drawn : Id} (hs : findServerAddress s.cnnctSrvrs a = some srvr)
    (hj : noteJoin srvr c now = .ok srvr') :
    ∀ srvr'' ∈ storeServer s.cnnctSrvrs a srvr',
      ServerStep s (.datagram a (.s2s (.join c)) drawn now) srvr'' := by
  obtain ⟨hm, rfl⟩ := findServerAddress_some hs
  intro srvr'' hm''
  rcases mem_storeServer (addr_noteJoin hj) hm'' with rfl | ⟨hold, hne⟩
  · rcases noteJoin_cases hj with ⟨pos, hp, rfl⟩ | ⟨hp, hadd⟩
    · exact .refreshed hm hp
    · exact .added hm hp hadd
  · refine .within hold (.refl _) fun hnd d hjoin => ?_
    obtain ⟨_, _, heq⟩ := hjoin
    injection heq with ha
    exact hne hnd ha.symm

/-- **What an input can do to the records of the neighbours.** -/
theorem tables_of_react (h : (react s i).result = .ok s') : TablesStep s i s'.cnnctSrvrs := by
  have of_eq : ∀ {t : ServerState}, t.cnnctSrvrs = s.cnnctSrvrs → (∀ b m, ¬ i.IsJoin b m) →
      TablesStep s i t.cnnctSrvrs := by
    intro t ht hi
    rw [ht]
    exact .kept hi
  have quiet : i.isQuiet = true → ∀ b d, ¬ i.IsJoin b d := by
    rintro hq b d ⟨drawn, now, rfl⟩
    cases hq
  cases outcome_of_react h with
  | login h => exact of_eq (reqLogin_ok h).1 fun _ _ => by rintro ⟨_, _, ⟨⟩⟩
  | logout h => exact of_eq (reqLogout_ok h).1 fun _ _ => by rintro ⟨_, _, ⟨⟩⟩
  | join h => exact of_eq (reqJoin_ok h).1 fun _ _ => by rintro ⟨_, _, ⟨⟩⟩
  | leave h =>
    obtain ⟨_, rfl⟩ := channels_of_reqLeave h
    exact of_eq rfl fun _ _ => by rintro ⟨_, _, ⟨⟩⟩
  | servJoin h =>
    obtain ⟨_, _, _, hs, hj, -, rfl⟩ := reqServJoin_ok h
    exact .joined hs hj
  | servLeave h =>
    obtain ⟨_, hs, h0, rfl⟩ := exists_of_reqServLeave h
    exact .left hs h0
  | timeouts h =>
    obtain ⟨srvs, h₁, h₂⟩ := Emit.bind_eq_ok_iff.mp h
    cases h₂
    exact .scanned h₁
  | renewal h => exact of_eq (renewalPass_ok h).1 fun _ _ => by rintro ⟨_, _, ⟨⟩⟩
  | recorded hq => exact of_eq rfl (quiet hq)
  | idle hq => exact of_eq rfl (quiet hq)

/-- **What an input can do to a neighbour's record.** -/
theorem servers_of_react (h : (react s i).result = .ok s') :
    ∀ srvr ∈ s'.cnnctSrvrs, ServerStep s i srvr := by
  have hstep := tables_of_react h
  generalize hsrvs : s'.cnnctSrvrs = srvs' at hstep
  cases hstep with
  | kept hi =>
    rw [← hsrvs]
    exact ServerStep.of_cnnctSrvrs hsrvs hi
  | joined hs hj => exact servers_noteJoin hs hj
  | left hs =>
    intro srvr' hm
    rcases mem_replaceFirst hm with rfl | hold
    · exact .within (findServerAddress_some hs).1 (within_setNumChnnls _ _) fun _ _ => by
        rintro ⟨_, _, ⟨⟩⟩
    · exact .within hold (.refl _) fun _ _ => by rintro ⟨_, _, ⟨⟩⟩
  | scanned hscan =>
    intro srvr' hm
    obtain ⟨srvr, hold, hw⟩ := exists_rel_of_mem (within_timeoutServers hscan) hm
    exact .within hold hw fun _ _ => by rintro ⟨_, _, ⟨⟩⟩

end Records

/-! ### No name twice -/

section Unique

variable {addrs : List Sockaddr} {s s' : ServerState} {i : Input} {srvr : Server} {c : Name}

/-- The step lemma: a name is appended only where it is not listed. -/
theorem ServerStep.nodup_subs (h : ServerStep s i srvr)
    (hs : ∀ old ∈ s.cnnctSrvrs, old.subs.Nodup) : srvr.subs.Nodup := by
  cases h with
  | within hm hw => exact (hs _ hm).sublist hw.subs.sublist
  | refreshed hm =>
    have hold := hs _ hm
    exact hold
  | added hm hp hadd =>
    rw [(addChSrv_eq_ok_iff.mp hadd).2.2.2.1]
    refine List.nodup_append'.mpr ⟨hs _ hm, List.nodup_singleton _, ?_⟩
    rw [List.disjoint_singleton]
    exact not_mem_subs_of_find hp

/-- No neighbour's table lists a name twice. -/
theorem Reachable.nodup_subs (h : Reachable addrs s) : ∀ srvr ∈ s.cnnctSrvrs, srvr.subs.Nodup := by
  induction h with
  | start unset now =>
    intro srvr hm
    obtain ⟨a, -, rfl⟩ := List.mem_map.mp hm
    exact List.nodup_singleton _
  | step i _ hr ih => exact fun srvr hm => (servers_of_react hr srvr hm).nodup_subs ih

/-- **No channel and no subscription is listed twice**, so a lookup by name finds the one entry of
that name, and a removal by name takes that entry and no other. -/
theorem Reachable.names_unique (h : Reachable addrs s) :
    (s.names.Nodup ∧ ∀ srvr ∈ s.cnnctSrvrs, srvr.subs.Nodup) ∧
      (∀ c chnl, findChannel s.channels c = some chnl ↔
        chnl ∈ s.channels.live ∧ chnl.chnlName = c) ∧
      (∀ c ∈ s.names, (removeChnl s.channels c).live =
        s.channels.live.filter fun chnl => chnl.chnlName != c) ∧
      ∀ srvr ∈ s.cnnctSrvrs, ∀ c pos,
        findChannelServer srvr c = some pos ↔ srvr.subs[pos]? = some c :=
  ⟨⟨h.nodup_names, h.nodup_subs⟩, fun _ _ => findChannel_eq_some_iff h.nodup_names,
    fun _ hc => live_removeChnl_eq_filter h.nodup_names hc,
    fun srvr hm _ _ => findChannelServer_eq_some_iff (h.nodup_subs srvr hm)⟩

open Three in
theorem names_unique_crowd :
    ∃ s : ServerState, s.names = [common, chnlX, chnlY] ∧
      s.cnnctSrvrs.map Server.subs = [[common, chnlX], [common, chnlY]] ∧
      (s.names.Nodup ∧ ∀ srvr ∈ s.cnnctSrvrs, srvr.subs.Nodup) ∧
      (removeChnl s.channels chnlX).live =
        s.channels.live.filter fun chnl => chnl.chnlName != chnlX := by
  obtain ⟨s, hs, hp⟩ := exists_crowd (p := fun s => s.names = [common, chnlX, chnlY] ∧
    s.cnnctSrvrs.map Server.subs = [[common, chnlX], [common, chnlY]]) (by decide)
  obtain ⟨hnames, hsubs⟩ := of_decide_eq_true hp
  obtain ⟨hnodup, -, hremove, -⟩ := hs.names_unique
  exact ⟨s, hnames, hsubs, hnodup, hremove chnlX (by rw [hnames]; decide)⟩

end Unique

/-! ### Since when -/

/-- The clock reading at the most recent join from a neighbour for a channel: no such join comes
after it. -/
def LastJoin (is : List Input) (a : Sockaddr) (c : Name) (tm : ℤ) : Prop :=
  ∃ bs drawn ds, is = bs ++ .datagram a (.s2s (.join c)) drawn tm :: ds ∧
    ∀ i ∈ ds, ¬ i.IsJoin a c

/-- The timers of a record, except the first, which `malloc` left as it was. -/
structure Stamped (is : List Input) (srvr : Server) : Prop where
  nodup : srvr.subs.Nodup
  stamp : ∀ (i : ℕ) (c : Name), 1 ≤ i → srvr.subs[i]? = some c →
    ∃ tm, srvr.timers.live[i]? = some tm ∧ LastJoin is srvr.addr c tm

section Stamps

variable {addrs : List Sockaddr} {s s' : ServerState} {is : List Input} {i : Input}
  {srvr srvr' : Server} {a : Sockaddr} {c : Name} {tm now : ℤ}

theorem LastJoin.concat (h : LastJoin is a c tm) (hi : ¬ i.IsJoin a c) :
    LastJoin (is ++ [i]) a c tm := by
  obtain ⟨bs, drawn, ds, rfl, hds⟩ := h
  refine ⟨bs, drawn, ds ++ [i], by rw [List.append_assoc, List.cons_append], fun j hj => ?_⟩
  rcases List.mem_append.mp hj with hj | hj
  · exact hds j hj
  · rwa [List.mem_singleton.mp hj]

theorem lastJoin_concat_self (is : List Input) (a : Sockaddr) (c : Name) (drawn : Id) (now : ℤ) :
    LastJoin (is ++ [.datagram a (.s2s (.join c)) drawn now]) a c now :=
  ⟨is, drawn, [], rfl, fun _ hi => absurd hi List.not_mem_nil⟩

theorem length_timers (srvr : Server) : srvr.timers.live.length = srvr.subs.length := by
  rw [srvr.timers.length_live, Server.subs, srvr.subChannels.length_live, srvr.inStep]

theorem getElem?_eq_of_initial {α : Type} {xs ys : List α} {x : α} {k : ℕ} (h : xs <+: ys)
    (hk : xs[k]? = some x) : ys[k]? = some x := by
  obtain ⟨zs, rfl⟩ := h
  rw [List.getElem?_append_left (List.getElem?_eq_some_iff.mp hk).1, hk]

/-- A record that only lost subscriptions, after an input that is no join of its neighbour. -/
theorem Stamped.within (h : Stamped is srvr) (hw : srvr'.Within srvr)
    (hi : ∀ c, ¬ i.IsJoin srvr.addr c) : Stamped (is ++ [i]) srvr' := by
  refine ⟨h.nodup.sublist hw.subs.sublist, fun k d hk hd => ?_⟩
  obtain ⟨tm, htm, hlast⟩ := h.stamp k d hk (getElem?_eq_of_initial hw.subs hd)
  have hlt : k < srvr'.timers.live.length := by
    rw [length_timers]
    exact (List.getElem?_eq_some_iff.mp hd).1
  refine ⟨tm, ?_, hw.addr ▸ hlast.concat (hi d)⟩
  have hget := getElem?_eq_of_initial hw.timers (List.getElem?_eq_getElem hlt)
  rw [List.getElem?_eq_getElem hlt, ← hget, htm]

/-- A refreshed timer. No other entry has the name, so no other timer would have to change. -/
theorem Stamped.refreshed {drawn : Id} {pos : ℕ} (h : Stamped is srvr)
    (hp : findChannelServer srvr c = some pos) :
    Stamped (is ++ [.datagram srvr.addr (.s2s (.join c)) drawn now])
      (refreshTimer srvr pos now) := by
  have hpos := (findChannelServer_eq_some_iff h.nodup).mp hp
  have hlive : (refreshTimer srvr pos now).timers.live = srvr.timers.live.set pos now :=
    Table.live_overwrite List.length_set
  refine ⟨h.nodup, fun k d hk hd => ?_⟩
  rw [hlive]
  change srvr.subs[k]? = some d at hd
  show ∃ tm, _ ∧ LastJoin _ srvr.addr d tm
  by_cases hkp : pos = k
  · subst hkp
    cases hpos.symm.trans hd
    have hlt : pos < srvr.timers.live.length := by
      rw [length_timers]
      exact (List.getElem?_eq_some_iff.mp hd).1
    exact ⟨now, by rw [List.getElem?_set_self hlt], lastJoin_concat_self _ _ _ _ _⟩
  · obtain ⟨tm, htm, hlast⟩ := h.stamp k d hk hd
    have hcd : c ≠ d := fun hcd => hkp (Option.some.inj
      (hp.symm.trans (hcd ▸ (findChannelServer_eq_some_iff h.nodup).mpr hd)))
    refine ⟨tm, by rw [List.getElem?_set_ne hkp, htm], hlast.concat ?_⟩
    rintro ⟨_, _, heq⟩
    cases heq
    exact hcd rfl

/-- A new name with its timer. -/
theorem Stamped.added {drawn : Id} (h : Stamped is srvr) (hp : findChannelServer srvr c = none)
    (hadd : addChSrv srvr c now = .ok srvr') (hnd : srvr'.subs.Nodup) :
    Stamped (is ++ [.datagram srvr.addr (.s2s (.join c)) drawn now]) srvr' := by
  obtain ⟨-, -, haddr, hsubs, htimers, -⟩ := addChSrv_eq_ok_iff.mp hadd
  refine ⟨hnd, fun k d hk hd => ?_⟩
  rw [hsubs] at hd
  rw [htimers, haddr]
  rcases Nat.lt_or_ge k srvr.subs.length with hlt | hge
  · rw [List.getElem?_append_left hlt] at hd
    obtain ⟨tm, htm, hlast⟩ := h.stamp k d hk hd
    refine ⟨tm, by rw [List.getElem?_append_left (by rw [length_timers]; exact hlt), htm],
      hlast.concat ?_⟩
    rintro ⟨_, _, heq⟩
    cases heq
    exact not_mem_subs_of_find hp (List.mem_of_getElem? hd)
  · rw [List.getElem?_append_right hge] at hd
    have hk0 : k - srvr.subs.length = 0 := by
      have := (List.getElem?_eq_some_iff.mp hd).1
      rw [List.length_singleton] at this
      omega
    rw [hk0] at hd
    cases hd
    refine ⟨now, ?_, lastJoin_concat_self _ _ _ _ _⟩
    rw [List.getElem?_append_right (by rw [length_timers]; exact hge), length_timers, hk0]
    rfl

/-- The step lemma. -/
theorem ServerStep.stamped (h : ServerStep s i srvr) (hnd : s.neighbours.Nodup)
    (hs : ∀ old ∈ s.cnnctSrvrs, Stamped is old) : Stamped (is ++ [i]) srvr := by
  have hsubs := h.nodup_subs fun old hold => (hs old hold).nodup
  cases h with
  | within hm hw hi => exact (hs _ hm).within hw (hi hnd)
  | refreshed hm hp => exact (hs _ hm).refreshed hp
  | added hm hp hadd => exact (hs _ hm).added hp hadd hsubs

/-- **Names and timers stay in step.** After a run of a server whose neighbours have distinct
addresses, the timer at any index but the first is the clock reading of the last join that the
neighbour sent for the name at that index. -/
theorem timers_in_step {unset start : ℤ} (hnd : addrs.Nodup)
    (h : Run ServerState.next (fun _ _ => True) (ServerState.start addrs unset start) is s)
    (hs : srvr ∈ s.cnnctSrvrs) (k : ℕ) (h1 : 1 ≤ k) (hk : k < srvr.numChnnls) :
    ∃ c tm, srvr.subs[k]? = some c ∧ srvr.timers.live[k]? = some tm ∧
      LastJoin is srvr.addr c tm := by
  have hinv : s.neighbours = addrs ∧ ∀ old ∈ s.cnnctSrvrs, Stamped is old := by
    refine h.history (P := fun bs t => t.neighbours = addrs ∧ ∀ old ∈ t.cnnctSrvrs, Stamped bs old)
      ?_ ⟨neighbours_start, fun old hold => ?_⟩
    · rintro bs t i t' ⟨hn, hst⟩ - hnext
      have hr := next_eq_some_iff.mp hnext
      exact ⟨(neighbours_of_react hr).trans hn,
        fun old hold => (servers_of_react hr old hold).stamped (hn ▸ hnd) hst⟩
    · obtain ⟨a, -, rfl⟩ := List.mem_map.mp hold
      refine ⟨List.nodup_singleton _, fun k d hk hd => ?_⟩
      have hlt : k < 1 := (List.getElem?_eq_some_iff.mp hd).1
      omega
  have hlt : k < srvr.subs.length := by
    have := srvr.subChannels.length_live
    rw [Server.numChnnls] at hk
    rw [Server.subs]
    omega
  obtain ⟨tm, htm, hlast⟩ := (hinv.2 srvr hs).stamp k _ h1 (List.getElem?_eq_getElem hlt)
  exact ⟨_, tm, List.getElem?_eq_getElem hlt, htm, hlast⟩

/-- A neighbour joins a channel at 5 and Common at 7, and renews the first at 65; the timeout scan
comes in between. -/
def Three.renewals : List Input :=
  [.datagram (addr 0) (.s2s (.join chnlX)) 0 5, .datagram (addr 0) (.s2s (.join common)) 0 7,
    .timeouts 60, .datagram (addr 0) (.s2s (.join chnlX)) 0 65]

open Three in
theorem timers_in_step_on_renewals :
    ∃ s, Run ServerState.next (fun _ _ => True) (ServerState.start [addr 0] 0 0) renewals s ∧
      ∃ srvr ∈ s.cnnctSrvrs, ∃ c tm, srvr.subs[1]? = some c ∧ srvr.timers.live[1]? = some tm ∧
        LastJoin renewals srvr.addr c tm := by
  have hex : (execute ServerState.next (fun _ _ => True) (ServerState.start [addr 0] 0 0)
      renewals).any (fun s => ∃ srvr ∈ s.cnnctSrvrs, 1 < srvr.numChnnls) = true := by
    decide
  obtain ⟨s, hr, hs⟩ := exists_run_of_execute hex
  obtain ⟨srvr, hm, hlt⟩ := of_decide_eq_true hs
  exact ⟨s, hr, srvr, hm, timers_in_step (List.nodup_singleton _) hr hm 1 (Nat.le_refl 1) hlt⟩

end Stamps

end DuckChat
