import DuckChat.NetworkRules
import DuckChat.Lib.Fresh

/-!
# Joins of servers in any order

A join of a neighbour may add a name to the neighbour's table, may create the channel, and sends a
join on exactly when it creates the channel. Each of the three is decided by whether the name is
new there, so that a list of joins adds the new names and sends one broadcast for each new channel,
whatever the order of the list, and a join that is repeated only sets a timer.

## Main definitions

* `Heard`, `hearAll` — a join, with the clock reading when it is handled; a list of them
* `NonNeg`, `JoinsFit` — counters that are not negative, and room for what is new
* `Told` — a state after some joins, and what was sent

## Main results

* `reqServJoin_spec`, `hearAll_spec` — one join, and a list of them
* `joins_in_any_order`
-/

set_option autoImplicit false

namespace DuckChat

/-- A join from a neighbour and the clock reading when it is handled. -/
structure Heard where
  src : Sockaddr
  channel : Name
  now : ℤ
deriving DecidableEq

/-- The message without the clock reading. -/
def Heard.message (m : Heard) : Sockaddr × Name := (m.src, m.channel)

/-- Joins handled one after the other. -/
def hearAll : ServerState → List Heard → Act ServerState
  | s, [] => pure s
  | s, m :: ms => do
    let s ← reqServJoin s m.src m.channel m.now
    hearAll s ms

/-- The channels that a neighbour joins. -/
def channelsFrom (b : Sockaddr) (ks : List (Sockaddr × Name)) : List Name :=
  (ks.filter fun k => addrCmp k.1 b).map Prod.snd

/-- Counters that are not negative. -/
structure NonNeg (s : ServerState) : Prop where
  channels : 0 ≤ s.channels.count
  tables : ∀ srvr ∈ s.cnnctSrvrs, 0 ≤ srvr.numChnnls

/-- The tables have room for the names that are new to them. -/
structure JoinsFit (s : ServerState) (ks : List (Sockaddr × Name)) : Prop where
  channels : s.names.length + (fresh s.names (ks.map Prod.snd)).length ≤ MAX_USERS
  subs : ∀ b ∈ s.neighbours,
    (s.subsOf b).length + (fresh (s.subsOf b) (channelsFrom b ks)).length ≤ MAX_CHANNELS

/-- The joins that announce channels to neighbours. -/
def announce (nbrs : List Sockaddr) (cs : List Name) : List Datagram :=
  cs.flatMap fun c => nbrs.map fun b => ⟨b, .s2s (.join c)⟩

/-- The state after some joins, and what was sent: every table has the names that were new to it,
and every channel that was new here has been announced. -/
structure Told (s : ServerState) (ks : List (Sockaddr × Name)) (s' : ServerState)
    (out : List Datagram) : Prop where
  names : s'.names = s.names ++ fresh s.names (ks.map Prod.snd)
  subs : ∀ b, s'.subsOf b = s.subsOf b ++ fresh (s.subsOf b) (channelsFrom b ks)
  neighbours : s'.neighbours = s.neighbours
  out : out = announce s.neighbours (fresh s.names (ks.map Prod.snd))

section Joins

variable {s s' s₁ s₂ : ServerState} {a b : Sockaddr} {c : Name} {now : ℤ} {srvr srvr' : Server}
  {ks ks' : List (Sockaddr × Name)} {out out' : List Datagram} {ms ms' : List Heard}

theorem channelsFrom_append (b : Sockaddr) (ks ks' : List (Sockaddr × Name)) :
    channelsFrom b (ks ++ ks') = channelsFrom b ks ++ channelsFrom b ks' := by
  rw [channelsFrom, List.filter_append, List.map_append, channelsFrom, channelsFrom]

theorem channelsFrom_self (b : Sockaddr) (c : Name) : channelsFrom b [(b, c)] = [c] := by
  simp [channelsFrom]

theorem channelsFrom_of_ne (h : a ≠ b) (c : Name) : channelsFrom b [(a, c)] = [] := by
  simp [channelsFrom, h]

theorem Told.append (h : Told s ks s₁ out) (h' : Told s₁ ks' s₂ out') :
    Told s (ks ++ ks') s₂ (out ++ out') where
  names := by
    rw [h'.names, h.names, List.map_append, fresh_append, List.append_assoc]
  subs b := by
    rw [h'.subs, h.subs, channelsFrom_append, fresh_append, List.append_assoc]
  neighbours := h'.neighbours.trans h.neighbours
  out := by
    rw [h.out, h'.out, h.neighbours, h.names, List.map_append, fresh_append, announce, announce,
      announce, List.flatMap_append]

theorem JoinsFit.first (h : JoinsFit s (ks ++ ks')) : JoinsFit s ks where
  channels := by
    have := h.channels
    rw [List.map_append, fresh_append, List.length_append] at this
    omega
  subs b hb := by
    have := h.subs b hb
    rw [channelsFrom_append, fresh_append, List.length_append] at this
    omega

/-- After some joins there is room for the others. -/
theorem JoinsFit.after (h : JoinsFit s (ks ++ ks')) (ht : Told s ks s₁ out) :
    JoinsFit s₁ ks' where
  channels := by
    have := h.channels
    rw [List.map_append, fresh_append, List.length_append] at this
    rw [ht.names, List.length_append]
    omega
  subs b hb := by
    rw [ht.neighbours] at hb
    have := h.subs b hb
    rw [channelsFrom_append, fresh_append, List.length_append] at this
    rw [ht.subs, List.length_append]
    omega

theorem count_channels_eq_length (h : 0 ≤ s.channels.count) :
    s.channels.count = s.names.length := by
  rw [ServerState.names, chnlNames, List.length_map]
  exact Table.count_eq_length h

theorem exists_noteJoin (now : ℤ) (h0 : 0 ≤ srvr.numChnnls)
    (hlt : c ∉ srvr.subs → srvr.numChnnls < MAX_CHANNELS) :
    ∃ srvr', noteJoin srvr c now = .ok srvr' := by
  rw [noteJoin]
  cases hp : findChannelServer srvr c with
  | some pos => exact ⟨_, rfl⟩
  | none =>
    exact exists_addChSrv now c h0 (hlt (not_mem_subs_of_find hp))

theorem subs_noteJoin (h : noteJoin srvr c now = .ok srvr') :
    srvr'.subs = srvr.subs ++ fresh srvr.subs [c] := by
  rcases noteJoin_cases h with ⟨pos, hp, rfl⟩ | ⟨hp, hadd⟩
  · have hc : c ∈ srvr.subs := isSome_findChannelServer_iff.mp (by rw [hp]; rfl)
    rw [fresh_singleton_of_mem hc, List.append_nil]
    rfl
  · rw [fresh_singleton_of_not_mem (not_mem_subs_of_find hp), (addChSrv_eq_ok_iff.mp hadd).2.2.2.1]

/-- A join of a configured neighbour that finds room ends well. -/
theorem exists_reqServJoin (now : ℤ) (h : NonNeg s) (ha : a ∈ s.neighbours)
    (hfit : JoinsFit s [(a, c)]) : ∃ s', (reqServJoin s a c now).result = .ok s' := by
  obtain ⟨srvr, hs⟩ := Option.isSome_iff_exists.mp (isSome_findServerAddress_iff.mpr ha)
  have h0 := h.tables srvr (findServerAddress_some hs).1
  have hsubs := hfit.subs a ha
  have hnames := hfit.channels
  rw [channelsFrom_self, subsOf_eq hs] at hsubs
  obtain ⟨srvr', hj⟩ := exists_noteJoin now h0 fun hc => by
    rw [fresh_singleton_of_not_mem hc, List.length_singleton] at hsubs
    rw [numChnnls_eq_length h0]
    omega
  cases hf : findChannel s.channels c with
  | some chnl =>
    refine ⟨{ s with cnnctSrvrs := storeServer s.cnnctSrvrs a srvr' }, ?_⟩
    refine Emit.bind_eq_ok_iff.mpr ⟨srvr, by rw [hs]; rfl, Emit.bind_eq_ok_iff.mpr ⟨srvr', hj, ?_⟩⟩
    simp only [hf, Emit.pure_eq]
  | none =>
    have hc : c ∉ s.names := findChannel_eq_none_iff.mp hf
    have hroom : s.channels.count < MAX_USERS := by
      have hnew : (fresh s.names [c]).length = 1 := by
        rw [fresh_singleton_of_not_mem hc, List.length_singleton]
      rw [count_channels_eq_length h.channels]
      change _ + (fresh s.names [c]).length ≤ _ at hnames
      omega
    obtain ⟨chnls, ht⟩ := exists_store (createChannel c now) h.channels hroom
    refine ⟨{ s with cnnctSrvrs := storeServer s.cnnctSrvrs a srvr', channels := chnls }, ?_⟩
    refine Emit.bind_eq_ok_iff.mpr ⟨srvr, by rw [hs]; rfl, Emit.bind_eq_ok_iff.mpr ⟨srvr', hj, ?_⟩⟩
    simp only [hf]
    exact Emit.bind_eq_ok_iff.mpr ⟨chnls, ht, rfl⟩

/-- **One join of a neighbour.** -/
theorem reqServJoin_spec (now : ℤ) (h : NonNeg s) (ha : a ∈ s.neighbours)
    (hfit : JoinsFit s [(a, c)]) :
    ∃ s', (reqServJoin s a c now).result = .ok s' ∧ NonNeg s' ∧
      Told s [(a, c)] s' (reqServJoin s a c now).out := by
  obtain ⟨s', hok⟩ := exists_reqServJoin now h ha hfit
  refine ⟨s', hok, ?_⟩
  rcases reqServJoin_cases s a c now with ⟨f, hf, -⟩ | ⟨srvr, srvr', s₁, hs, hj, rfl, hk⟩
  · rw [hf] at hok
    cases hok
  obtain ⟨hm, haddr⟩ := findServerAddress_some hs
  have haddr' : srvr'.addr = a := (addr_noteJoin hj).trans haddr
  have htables : ∀ old ∈ storeServer s.cnnctSrvrs a srvr', 0 ≤ old.numChnnls := by
    intro old hold
    rcases mem_replaceFirst hold with rfl | hold
    · exact numChnnls_noteJoin hj (h.tables srvr hm)
    · exact h.tables old hold
  have hsubs : ∀ {t : ServerState}, t.cnnctSrvrs = storeServer s.cnnctSrvrs a srvr' →
      ∀ b, t.subsOf b = s.subsOf b ++ fresh (s.subsOf b) (channelsFrom b [(a, c)]) := by
    intro t ht b
    by_cases hb : b = a
    · rw [hb, subsOf_storeServer_self haddr' ha ht, channelsFrom_self, subs_noteJoin hj,
        subsOf_eq hs]
    · rw [subsOf_storeServer_of_ne haddr' hb ht, channelsFrom_of_ne (Ne.symm hb), fresh_nil,
        List.append_nil]
  rcases hk with ⟨hc, hr, ho⟩ | ⟨hc, chnls, hadd, hr, ho⟩
  · rw [hr] at hok
    cases hok
    have hnew : fresh s.names [c] = [] := fresh_singleton_of_mem hc
    refine ⟨⟨h.channels, htables⟩, ?_, hsubs rfl, neighbours_storeServer haddr' rfl, ?_⟩
    · exact (List.append_nil _).symm.trans (congrArg _ hnew.symm)
    · rw [ho]
      exact congrArg (announce s.neighbours) hnew.symm
  · rw [hr] at hok
    cases hok
    have hnew : fresh s.names [c] = [c] := fresh_singleton_of_not_mem hc
    have hcount := (addChnl_eq_ok_iff.mp hadd).2.2.2
    have h0 := h.channels
    refine ⟨⟨?_, htables⟩, ?_, hsubs rfl, neighbours_storeServer haddr' rfl, ?_⟩
    · show 0 ≤ chnls.count
      omega
    · exact (chnlNames_addChnl hadd).trans (congrArg (s.names ++ ·) hnew.symm)
    · rw [ho]
      show _ = announce s.neighbours (fresh s.names [c])
      rw [hnew, announce, List.flatMap_singleton]

/-- **A list of joins.** -/
theorem hearAll_spec (h : NonNeg s) (hsrc : ∀ m ∈ ms, m.src ∈ s.neighbours)
    (hfit : JoinsFit s (ms.map Heard.message)) :
    ∃ s', (hearAll s ms).result = .ok s' ∧ NonNeg s' ∧
      Told s (ms.map Heard.message) s' (hearAll s ms).out := by
  induction ms generalizing s with
  | nil => exact ⟨s, rfl, h, (List.append_nil _).symm, fun b => (List.append_nil _).symm, rfl, rfl⟩
  | cons m ms ih =>
    have hfit : JoinsFit s ([(m.src, m.channel)] ++ ms.map Heard.message) := hfit
    obtain ⟨s₁, hok₁, hn₁, ht₁⟩ := reqServJoin_spec m.now h (hsrc m List.mem_cons_self) hfit.first
    obtain ⟨s₂, hok₂, hn₂, ht₂⟩ := ih hn₁
      (fun x hx => by rw [ht₁.neighbours]; exact hsrc x (List.mem_cons_of_mem _ hx))
      (hfit.after ht₁)
    refine ⟨s₂, Emit.bind_eq_ok_iff.mpr ⟨s₁, hok₁, hok₂⟩, hn₂, ?_⟩
    have hout : (hearAll s (m :: ms)).out =
        (reqServJoin s m.src m.channel m.now).out ++ (hearAll s₁ ms).out :=
      Emit.out_bind_of_ok hok₁
    rw [hout]
    exact ht₁.append ht₂

/-- A join that is listed already sets its timer, and does nothing else. -/
theorem reqServJoin_again (now : ℤ) (hc : c ∈ s.names) (hsub : c ∈ s.subsOf a) :
    ∃ srvr pos, findServerAddress s.cnnctSrvrs a = some srvr ∧
      findChannelServer srvr c = some pos ∧
      reqServJoin s a c now = ⟨[], .ok { s with
        cnnctSrvrs := storeServer s.cnnctSrvrs a (refreshTimer srvr pos now) }⟩ := by
  obtain ⟨srvr, hs⟩ := Option.isSome_iff_exists.mp
    (isSome_findServerAddress_iff.mpr (mem_neighbours_of_mem_subsOf hsub))
  rw [subsOf_eq hs] at hsub
  obtain ⟨pos, hp⟩ := Option.isSome_iff_exists.mp (isSome_findChannelServer_iff.mpr hsub)
  obtain ⟨chnl, hf⟩ := Option.isSome_iff_exists.mp (isSome_findChannel_iff.mpr hc)
  refine ⟨srvr, pos, hs, hp, ?_⟩
  rw [reqServJoin, hs]
  simp only [nonNull, noteJoin, hp, hf, Emit.lift_eq, Emit.mk_ok_bind, Emit.pure_eq,
    List.append_nil]

theorem channelsFrom_perm (hp : ks.Perm ks') (b : Sockaddr) :
    (channelsFrom b ks).Perm (channelsFrom b ks') :=
  (hp.filter _).map _

theorem JoinsFit.perm (h : JoinsFit s ks) (hp : ks.Perm ks') : JoinsFit s ks' where
  channels := by
    rw [← (fresh_perm s.names fun _ => (hp.map Prod.snd).mem_iff).length_eq]
    exact h.channels
  subs b hb := by
    rw [← (fresh_perm (s.subsOf b) fun _ => (channelsFrom_perm hp b).mem_iff).length_eq]
    exact h.subs b hb

/-- The same joins in another order tell the tables the same. -/
theorem Told.perm (h₁ : Told s ks s₁ out) (h₂ : Told s ks' s₂ out') (hp : ks.Perm ks') :
    s₁.names.Perm s₂.names ∧ (∀ b, (s₁.subsOf b).Perm (s₂.subsOf b)) ∧ out.Perm out' := by
  have hnew : (fresh s.names (ks.map Prod.snd)).Perm (fresh s.names (ks'.map Prod.snd)) :=
    fresh_perm _ fun _ => (hp.map Prod.snd).mem_iff
  refine ⟨?_, fun b => ?_, ?_⟩
  · rw [h₁.names, h₂.names]
    exact hnew.append_left _
  · rw [h₁.subs, h₂.subs]
    exact (fresh_perm _ fun _ => (channelsFrom_perm hp b).mem_iff).append_left _
  · rw [h₁.out, h₂.out]
    exact hnew.flatMap_right _

end Joins

/-- **Joins of servers in any order**, with whatever clock readings: the same channels are held, the
same are listed for each neighbour, the same joins are sent on; and to repeat one of them afterwards
sets the timer of its entry, and does nothing else. -/
theorem joins_in_any_order {s : ServerState} {ms ms' : List Heard} (h : NonNeg s)
    (hsrc : ∀ m ∈ ms, m.src ∈ s.neighbours) (hfit : JoinsFit s (ms.map Heard.message))
    (hp : (ms.map Heard.message).Perm (ms'.map Heard.message)) :
    ∃ s₁ s₂, (hearAll s ms).result = .ok s₁ ∧ (hearAll s ms').result = .ok s₂ ∧
      s₁.names.Perm s₂.names ∧ (∀ b, (s₁.subsOf b).Perm (s₂.subsOf b)) ∧
      (hearAll s ms).out.Perm (hearAll s ms').out ∧
      ∀ m ∈ ms, ∀ now, ∃ srvr pos, findServerAddress s₁.cnnctSrvrs m.src = some srvr ∧
        findChannelServer srvr m.channel = some pos ∧
        reqServJoin s₁ m.src m.channel now = ⟨[], .ok { s₁ with
          cnnctSrvrs := storeServer s₁.cnnctSrvrs m.src (refreshTimer srvr pos now) }⟩ := by
  have hsrc' : ∀ m ∈ ms', m.src ∈ s.neighbours := by
    intro m hm
    obtain ⟨m₀, hm₀, heq⟩ := List.mem_map.mp (hp.mem_iff.mpr (List.mem_map_of_mem hm))
    have : m₀.src = m.src := congrArg Prod.fst heq
    exact this ▸ hsrc m₀ hm₀
  obtain ⟨s₁, hok₁, -, ht₁⟩ := hearAll_spec h hsrc hfit
  obtain ⟨s₂, hok₂, -, ht₂⟩ := hearAll_spec h hsrc' (hfit.perm hp)
  obtain ⟨hnames, hsubs, hout⟩ := ht₁.perm ht₂ hp
  refine ⟨s₁, s₂, hok₁, hok₂, hnames, hsubs, hout, fun m hm now => ?_⟩
  have hkey : m.message ∈ ms.map Heard.message := List.mem_map_of_mem hm
  refine reqServJoin_again now ?_ ?_
  · rw [ht₁.names, mem_append_fresh]
    exact Or.inr (List.mem_map_of_mem (f := Prod.snd) hkey)
  · rw [ht₁.subs, mem_append_fresh]
    refine Or.inr (List.mem_map.mpr ⟨m.message, List.mem_filter.mpr ⟨hkey, ?_⟩, rfl⟩)
    exact addrCmp_iff.mpr rfl

namespace Three

/-- Two neighbours join one channel, one of them twice. -/
def heard : List Heard := [⟨addr 0, chnlX, 1⟩, ⟨addr 2, chnlX, 2⟩, ⟨addr 0, chnlX, 3⟩]

/-- The same in another order. -/
def heardLater : List Heard := [⟨addr 2, chnlX, 4⟩, ⟨addr 0, chnlX, 5⟩, ⟨addr 0, chnlX, 6⟩]

end Three

open Three in
theorem joins_in_any_order_on_line :
    ∃ s₁ s₂, (hearAll (withUser 1) heard).result = .ok s₁ ∧
      (hearAll (withUser 1) heardLater).result = .ok s₂ ∧ s₁.names.Perm s₂.names := by
  have h : NonNeg (withUser 1) := ⟨by decide, by decide⟩
  have hsrc : ∀ m ∈ heard, m.src ∈ (withUser 1).neighbours := by decide
  have hfit : JoinsFit (withUser 1) (heard.map Heard.message) := ⟨by decide, by decide⟩
  have hp : (heard.map Heard.message).Perm (heardLater.map Heard.message) := by decide
  obtain ⟨s₁, s₂, h₁, h₂, hn, -⟩ := joins_in_any_order h hsrc hfit hp
  exact ⟨s₁, s₂, h₁, h₂, hn⟩

end DuckChat
