import DuckChat.NetworkRules

/-!
# States in which requests do not fault

The handlers follow pointers without a test and store at their counters. On a sound state, where
every entry of every channel is an allocated user and no counter is negative, a request that comes
from where the program expects it from goes wrong only by growing a table beyond its size.

## Main definitions

* `Fault.Overrun` — a fault of size
* `Sound`
* `Safe` — ends well in a given set of states, or overruns

## Main results

* `Sound.reqLogin`, `Sound.reqJoin`, `Sound.reqSay`, `Sound.reqServJoin`, `Sound.reqServLeave`,
  `Sound.reqServSay`
-/

set_option autoImplicit false

namespace DuckChat

/-- A table, the window of identifiers or a counter grew beyond its declared size. -/
def Fault.Overrun : Fault → Prop
  | .store .above => True
  | .read => True
  | .counter => True
  | _ => False

/-- Entries that can be read, and a counter that is not negative. -/
def Channel.Sound (heap : List User) (chnl : Channel) : Prop :=
  0 ≤ chnl.numUsers ∧ ∀ e ∈ chnl.entries, Readable heap e

instance (heap : List User) (chnl : Channel) : Decidable (chnl.Sound heap) :=
  inferInstanceAs (Decidable (_ ∧ _))

/-- No request faults on such a state because of what the state holds. -/
structure Sound (s : ServerState) : Prop where
  channels : 0 ≤ s.channels.count
  allUsers : 0 ≤ s.allUsers.count
  tables : ∀ srvr ∈ s.cnnctSrvrs, 0 ≤ srvr.numChnnls
  users : ∀ chnl ∈ s.channels.live, chnl.Sound s.heap

/-- The handler ends in one of the states, or overruns a table. -/
def Safe {α : Type} (Q : α → Prop) (r : Act α) : Prop := r.Post Q Fault.Overrun

section Basics

variable {α : Type} {s : ServerState} {heap heap' : List User} {chnl : Channel} {a : Sockaddr}
  {c : Name} {u : Username} {now : ℤ}

/-- An append to a table whose counter is not negative. -/
theorem safe_store {cap : ℕ} {t : Table α cap} (x : α) (h : 0 ≤ t.count) :
    Safe (fun t' => t'.live = t.live ++ [x] ∧ t'.count = t.count + 1)
      (Emit.lift (store t x)) := by
  cases hs : store t x with
  | ok t' => exact (store_eq_ok_iff.mp hs).2.2
  | error f =>
    rw [store] at hs
    cases hp : t.push x with
    | ok t' => rw [hp] at hs; cases hs
    | error e =>
      rw [hp] at hs
      cases hs
      rcases Table.push_error hp with ⟨-, hlt⟩ | ⟨rfl, -⟩
      · omega
      · trivial

theorem Channel.Sound.mono (h : chnl.Sound heap) (hs : ∀ v ∈ heap, v ∈ heap') :
    chnl.Sound heap' := by
  refine ⟨h.1, fun e he => ?_⟩
  obtain ⟨v, hv, rfl⟩ := h.2 e he
  exact ⟨v, hs v hv, rfl⟩

theorem sound_createChannel : (createChannel c now).Sound heap :=
  ⟨Int.le_refl 0, fun _ he => absurd he List.not_mem_nil⟩

theorem safe_addUser {v : User} (h : chnl.Sound heap) (hv : v ∈ heap) :
    Safe (fun chnl' => chnl'.Sound heap ∧ chnl'.numUsers = chnl.numUsers + 1 ∧
        chnl'.entries = chnl.entries ++ [some v] ∧ chnl'.chnlName = chnl.chnlName)
      (Emit.lift (addUser chnl (some v))) := by
  have hst := safe_store (some v) h.1
  cases hs : store chnl.connectedUsers (some v) with
  | error f =>
    rw [hs] at hst
    rw [addUser, hs]
    exact hst
  | ok t =>
    rw [hs] at hst
    obtain ⟨hl, hc⟩ := hst
    rw [addUser, hs]
    refine ⟨⟨?_, ?_⟩, hc, hl, rfl⟩
    · have := h.1
      simp only [Channel.numUsers] at this ⊢
      omega
    · intro e he
      rw [Channel.entries, hl] at he
      rcases List.mem_append.mp he with he | he
      · exact h.2 e he
      · exact ⟨v, hv, List.mem_singleton.mp he⟩

/-- The user that `find_user` returns is allocated. -/
theorem mem_heap_of_findUser {v : User} (h : findUser s.allUsers a = some v) :
    v ∈ s.heap ∧ v.address = a :=
  ⟨List.mem_of_find?_eq_some h, by simpa using List.find?_some h⟩

/-- An entry of a channel belongs to a user that `find_user` finds. -/
theorem isSome_findUser_of_entry (h : chnl.Sound s.heap) {v : User} (he : some v ∈ chnl.entries) :
    ∃ w, findUser s.allUsers v.address = some w := by
  obtain ⟨w, hw, hwv⟩ := h.2 _ he
  cases hwv
  refine Option.isSome_iff_exists.mp (List.find?_isSome.mpr ⟨v, hw, ?_⟩)
  exact addrCmp_iff.mpr rfl

end Basics

/-! ### Texts for readable entries -/

/-- A text for each user among the entries. -/
def textsTo (es : List (Option User)) (t : Text) : List Datagram :=
  es.filterMap fun e => e.map fun u => ⟨u.address, .text t⟩

section Texts

variable {s : ServerState} {heap : List User} {chnl : Channel} {a : Sockaddr} {c : Name}
  {t : SayText} {v : User} {es : List (Option User)}

theorem deliverLoop_eq {ts : Text} (h : ∀ e ∈ es, Readable heap e) :
    deliverLoop heap ts es = ⟨textsTo es ts, .ok ()⟩ := by
  induction es with
  | nil => rfl
  | cons e es ih =>
    obtain ⟨x, hx, rfl⟩ := h e List.mem_cons_self
    have hread : deref heap (some x) = .ok x := deref_eq_ok_iff.mpr ⟨rfl, hx⟩
    rw [deliverLoop, ih fun e he => h e (List.mem_cons_of_mem _ he)]
    simp only [Emit.lift_eq, Emit.mk_ok_bind, hread, sendText, Emit.emit_bind, List.nil_append]
    rfl

/-- The speaker is found by address among the entries, the same for every listener. -/
theorem sayLoop_eq (h : ∀ e ∈ chnl.entries, Readable heap e) (hv : some v ∈ chnl.entries)
    (hva : v.address = a) (hes : ∀ e ∈ es, Readable heap e) :
    ∃ name, sayLoop heap chnl a c t es = ⟨textsTo es (.say c name t), .ok ()⟩ := by
  have hspeaker : ∃ w, chnl.entries.find? (hasUser fun u => addrCmp u.address a) = some (some w) ∧
      w ∈ heap := by
    have hsome : (chnl.entries.find? (hasUser fun u => addrCmp u.address a)).isSome := by
      rw [List.find?_isSome]
      exact ⟨some v, hv, addrCmp_iff.mpr hva⟩
    obtain ⟨e, he⟩ := Option.isSome_iff_exists.mp hsome
    obtain ⟨w, hw, rfl⟩ := h e (List.mem_of_find?_eq_some he)
    exact ⟨w, he, hw⟩
  obtain ⟨w, hw, hwh⟩ := hspeaker
  have hfollow : followEntry heap (some (some w)) = .ok w := deref_eq_ok_iff.mpr ⟨rfl, hwh⟩
  refine ⟨w.username, ?_⟩
  induction es with
  | nil => rfl
  | cons e es ih =>
    obtain ⟨x, hx, rfl⟩ := hes e List.mem_cons_self
    have hread : deref heap (some x) = .ok x := deref_eq_ok_iff.mpr ⟨rfl, hx⟩
    rw [sayLoop, ih fun e he => hes e (List.mem_cons_of_mem _ he), findByaddr_eq_ok h, hw]
    simp only [Emit.lift_eq, Emit.mk_ok_bind, hfollow, hread, sendText, Emit.emit_bind,
      List.nil_append]
    rfl

/-- **`REQ_SAY` of a member** whose identifier can be recorded: a text for every entry and a packet
for every neighbour that lists the channel. -/
theorem reqSay_eq {drawn : Id} {ids : RecentIds} (hf : findChannel s.channels c = some chnl)
    (h : ∀ e ∈ chnl.entries, Readable s.heap e) (hv : some v ∈ chnl.entries)
    (hva : v.address = a) (hr : s.recentIds.record drawn = .ok ids) :
    ∃ name usr, findUser s.allUsers a = some usr ∧ reqSay s a c t drawn =
      ⟨textsTo chnl.entries (.say c name t) ++ sayPackets s (s2sFillSay c usr.username t drawn),
        .ok (s.recorded ids)⟩ := by
  obtain ⟨name, hloop⟩ := sayLoop_eq (c := c) (t := t) h hv hva h
  obtain ⟨w, hw, hwv⟩ := h _ hv
  obtain ⟨usr, husr⟩ : ∃ usr, findUser s.allUsers a = some usr := by
    refine Option.isSome_iff_exists.mp (List.find?_isSome.mpr ⟨w, hw, addrCmp_iff.mpr ?_⟩)
    cases hwv
    exact hva
  refine ⟨name, usr, husr, ?_⟩
  rw [reqSay, hf]
  simp only [hloop, husr, nonNull, hr, Emit.lift_eq, Emit.mk_ok_bind, Emit.emitAll_bind,
    Emit.pure_eq, List.nil_append, List.append_nil]
  rfl

/-- `REQ_SERV_SAY` of a new identifier on a channel that is held: what is left is the count. -/
theorem reqServSay_new {m : SayS2S} {ids : RecentIds} (hd : hasId s.recentIds m.id = .ok false)
    (hr : s.recentIds.record m.id = .ok ids)
    (hf : findChannel s.channels m.reqChannel = some chnl) :
    reqServSay s a m =
      if chnl.numUsers = 0 ∧ hasChannelServers s.cnnctSrvrs m.reqChannel ≤ 1 then
        ⟨[⟨a, .s2s (.leave m.reqChannel)⟩], .ok (s.recorded ids)⟩
      else
        deliverLoop s.heap (fillTextSay m.reqChannel m.reqUsername m.reqText) chnl.entries >>=
          fun _ => ⟨forwardPackets s a m, .ok (s.recorded ids)⟩ := by
  rw [reqServSay]
  simp only [hd, hr, hf, nonNull, Emit.lift_eq, Emit.mk_ok_bind, List.nil_append,
    Bool.false_eq_true, if_false, Emit.emitAll_bind, Emit.pure_eq, List.append_nil]
  split
  · rfl
  · rfl

/-- **`REQ_SERV_SAY` of a new identifier** on a channel that is held and can be read. -/
theorem reqServSay_eq {m : SayS2S} {ids : RecentIds} (hd : hasId s.recentIds m.id = .ok false)
    (hr : s.recentIds.record m.id = .ok ids) (hf : findChannel s.channels m.reqChannel = some chnl)
    (h : ∀ e ∈ chnl.entries, Readable s.heap e) :
    reqServSay s a m =
      if chnl.numUsers = 0 ∧ hasChannelServers s.cnnctSrvrs m.reqChannel ≤ 1 then
        ⟨[⟨a, .s2s (.leave m.reqChannel)⟩], .ok (s.recorded ids)⟩
      else
        ⟨textsTo chnl.entries (.say m.reqChannel m.reqUsername m.reqText) ++ forwardPackets s a m,
          .ok (s.recorded ids)⟩ := by
  rw [reqServSay_new hd hr hf, deliverLoop_eq h]
  rfl

end Texts

namespace Sound

variable {s : ServerState} {chnl : Channel} {a : Sockaddr} {c : Name} {u : Username} {now : ℤ}

theorem start (addrs : List Sockaddr) (unset now : ℤ) : Sound (ServerState.start addrs unset now)
    where
  channels := Int.zero_le_ofNat 1
  allUsers := Int.le_refl 0
  tables srvr h := by
    obtain ⟨a, -, rfl⟩ := List.mem_map.mp h
    exact Int.zero_le_ofNat 1
  users chnl h := by
    cases List.mem_singleton.mp h
    exact sound_createChannel

/-! ### Requests of clients -/

theorem reqLogin (h : Sound s) : Safe Sound (DuckChat.reqLogin s a u) := by
  have hlog : ∀ t : ServerState, t.cnnctSrvrs = s.cnnctSrvrs → t.allUsers = s.allUsers →
      0 ≤ t.channels.count → (∀ chnl ∈ t.channels.live, chnl.Sound (⟨s.heapNext, u, a⟩ :: s.heap)) →
      Safe Sound (Emit.lift (store t.allUsers ⟨s.heapNext, u, a⟩) >>= fun allUsers =>
        pure { t with allUsers := allUsers } : Act ServerState) := by
    intro t htc hta ht0 htu
    refine Emit.Post.bind ((safe_store _ (by rw [hta]; exact h.allUsers)).mono ?_)
    rintro users ⟨hl, hc⟩
    refine ⟨ht0, ?_, by rw [htc]; exact h.tables, fun chnl hch => (htu chnl hch).mono ?_⟩
    · have := h.allUsers
      change 0 ≤ users.count
      rw [hc, hta]
      omega
    · intro v hv
      change v ∈ users.live
      rw [hl, hta]
      rcases List.mem_cons.mp hv with rfl | hv
      · exact List.mem_append_right _ (List.mem_singleton_self _)
      · exact List.mem_append_left _ hv
  have hold : ∀ chnl ∈ s.channels.live, chnl.Sound (⟨s.heapNext, u, a⟩ :: s.heap) :=
    fun chnl hch => (h.users chnl hch).mono fun v hv => List.mem_cons_of_mem _ hv
  rw [DuckChat.reqLogin]
  refine Emit.Post.bind ?_
  rw [onSlotZero]
  simp only
  split
  · exact hlog { s with heapNext := s.heapNext + 1 } rfl rfl h.channels hold
  · next chnl chnls hl =>
    have hadd := safe_addUser (hold chnl (by rw [hl]; exact List.mem_cons_self))
      (v := ⟨s.heapNext, u, a⟩) List.mem_cons_self
    cases hm : createUser chnl ⟨s.heapNext, u, a⟩ with
    | error f =>
      rw [createUser] at hm
      rw [hm] at hadd
      exact hadd
    | ok mid =>
      rw [createUser] at hm
      rw [hm] at hadd
      obtain ⟨hmid, hn, -, -⟩ := hadd
      simp only [bind, Except.bind, ServerState.heap] at hmid ⊢
      rw [removeUser_eq_ok _ hmid.2]
      refine hlog { s with
        heapNext := s.heapNext + 1
        channels := s.channels.overwrite _ } rfl rfl ?_ ?_
      · rw [Table.count_overwrite]
        exact h.channels
      · intro ch hch
        rw [Table.live_overwrite (by rw [hl]; rfl)] at hch
        rcases List.mem_cons.mp hch with rfl | hch
        · refine ⟨?_, fun e he => hmid.2 e (Table.mem_of_mem_live_remove he)⟩
          have := (h.users chnl (by rw [hl]; exact List.mem_cons_self)).1
          simp only [Channel.numUsers, Table.count_remove] at this hn ⊢
          omega
        · exact hold ch (by rw [hl]; exact List.mem_cons_of_mem _ hch)

/-- Storing a sound channel. -/
theorem storeChannel {t : Table Channel MAX_USERS} (ht : ∀ ch ∈ t.live, ch.Sound s.heap)
    (hc : chnl.Sound s.heap) : ∀ ch ∈ (DuckChat.storeChannel t c chnl).live, ch.Sound s.heap := by
  intro ch hch
  rw [live_storeChannel] at hch
  rcases mem_replaceFirst hch with rfl | hch
  · exact hc
  · exact ht ch hch

/-- A new channel in the table. -/
theorem addChnl (h : Sound s) (c : Name) (now : ℤ) :
    Safe (fun t => 0 ≤ t.count ∧ ∀ ch ∈ t.live, ch.Sound s.heap)
      (Emit.lift (DuckChat.addChnl s.channels c now)) := by
  refine (safe_store _ h.channels).mono ?_
  rintro t ⟨hl, hc⟩
  have := h.channels
  refine ⟨by omega, fun ch hch => ?_⟩
  rw [hl] at hch
  rcases List.mem_append.mp hch with hch | hch
  · exact h.users ch hch
  · rw [List.mem_singleton.mp hch]
    exact sound_createChannel

/-- The requester is logged in. -/
theorem reqJoin (h : Sound s) (ha : (findUser s.allUsers a).isSome) :
    Safe Sound (DuckChat.reqJoin s a c now) := by
  obtain ⟨v, hv⟩ := Option.isSome_iff_exists.mp ha
  have hvh := (mem_heap_of_findUser hv).1
  have hadd : ∀ (t : Table Channel MAX_USERS) (ch : Channel), 0 ≤ t.count →
      (∀ ch ∈ t.live, ch.Sound s.heap) → ch.Sound s.heap →
      Safe Sound (Emit.lift (addUser ch (findUser s.allUsers a)) >>= fun ch' =>
        pure { s with channels := DuckChat.storeChannel t c ch' } : Act ServerState) := by
    intro t ch ht0 ht hch
    rw [hv]
    refine Emit.Post.bind ((safe_addUser hch hvh).mono ?_)
    rintro ch' ⟨hs', -, -⟩
    refine ⟨?_, h.allUsers, h.tables, storeChannel ht hs'⟩
    change 0 ≤ (Table.overwrite _ _).count
    rw [Table.count_overwrite]
    exact ht0
  rw [DuckChat.reqJoin, broadcast]
  simp only [Emit.emitAll_bind]
  cases hf : findChannel s.channels c with
  | some ch =>
    exact hadd s.channels ch h.channels h.users (h.users ch (findChannel_some hf).1)
  | none =>
    have hnew := h.addChnl c now
    cases ht : DuckChat.addChnl s.channels c now with
    | error f => rw [ht] at hnew; exact hnew
    | ok t =>
      rw [ht] at hnew
      exact hadd t _ hnew.1 hnew.2 sound_createChannel

/-- The requester is a member of the channel. -/
theorem reqSay {t : SayText} {drawn : Id} {v : User} (h : Sound s)
    (hf : findChannel s.channels c = some chnl) (hv : some v ∈ chnl.entries) (hva : v.address = a) :
    Safe Sound (DuckChat.reqSay s a c t drawn) := by
  have hch := h.users chnl (findChannel_some hf).1
  obtain ⟨w, hw⟩ := isSome_findUser_of_entry hch hv
  obtain ⟨name, hloop⟩ := sayLoop_eq (c := c) (t := t) hch.2 hv hva hch.2
  rw [hva] at hw
  rw [DuckChat.reqSay, hf]
  simp only [hloop, hw]
  refine Emit.Post.bind (Emit.Post.bind ?_)
  cases hr : s.recentIds.record drawn with
  | error f =>
    rw [RecentIds.record_error hr]
    exact trivial
  | ok ids => exact ⟨h.channels, h.allUsers, h.tables, h.users⟩

/-! ### Requests of servers -/

/-- Storing a record with a counter that is not negative. -/
theorem storeServer {srvr : Server} (h : Sound s) (hs : 0 ≤ srvr.numChnnls) :
    Sound { s with cnnctSrvrs := DuckChat.storeServer s.cnnctSrvrs a srvr } where
  channels := h.channels
  allUsers := h.allUsers
  users := h.users
  tables x hx := by
    rcases mem_replaceFirst hx with rfl | hx
    · exact hs
    · exact h.tables x hx

/-- The record of a neighbour. -/
theorem neighbour (h : Sound s) (ha : a ∈ s.neighbours) :
    ∃ srvr, findServerAddress s.cnnctSrvrs a = some srvr ∧ 0 ≤ srvr.numChnnls := by
  obtain ⟨srvr, hs⟩ := Option.isSome_iff_exists.mp (isSome_findServerAddress_iff.mpr ha)
  exact ⟨srvr, hs, h.tables srvr (findServerAddress_some hs).1⟩

theorem noteJoin {srvr : Server} (h : 0 ≤ srvr.numChnnls) :
    Safe (fun srvr' => 0 ≤ srvr'.numChnnls) (Emit.lift (DuckChat.noteJoin srvr c now)) := by
  rw [DuckChat.noteJoin]
  cases hp : findChannelServer srvr c with
  | some pos => exact h
  | none =>
    simp only
    unfold addChSrv
    split
    · next names timers hs ht =>
      have h₁ := (store_eq_ok_iff.mp hs).2.2.2
      change 0 ≤ names.count
      rw [h₁]
      exact Int.add_nonneg h (Int.zero_le_ofNat 1)
    · next f hs =>
      have h₁ := safe_store c h
      rw [Server.subChannels] at hs
      rw [hs] at h₁
      exact h₁
    · next f ht _ =>
      have h₁ := safe_store now (t := srvr.timers) (by rw [srvr.inStep]; exact h)
      rw [ht] at h₁
      exact h₁

theorem reqServJoin (h : Sound s) (ha : a ∈ s.neighbours) :
    Safe Sound (DuckChat.reqServJoin s a c now) := by
  obtain ⟨srvr, hs, h0⟩ := h.neighbour ha
  rw [DuckChat.reqServJoin, hs]
  refine Emit.Post.bind (Emit.Post.of_ok rfl (Emit.Post.bind ((noteJoin h0).mono ?_)))
  intro srvr' h0'
  have h' : Sound { s with cnnctSrvrs := DuckChat.storeServer s.cnnctSrvrs a srvr' } :=
    h.storeServer h0'
  simp only
  cases hf : findChannel s.channels c with
  | some ch => exact h'
  | none =>
    refine Emit.Post.bind ((h'.addChnl c now).mono ?_)
    rintro t ⟨ht0, ht⟩
    exact ⟨ht0, h.allUsers, h'.tables, ht⟩

/-- The sender has a channel listed. -/
theorem reqServLeave (h : Sound s) (ha : a ∈ s.neighbours) (hne : s.subsOf a ≠ []) :
    ∃ s', (DuckChat.reqServLeave s a c).result = .ok s' ∧ Sound s' := by
  obtain ⟨srvr, hs, h0⟩ := h.neighbour ha
  rw [subsOf_eq hs] at hne
  obtain ⟨-, ⟨f, -, hk | ⟨srvr₁, hs₁, hlt⟩⟩ | ⟨srvr₁, hs₁, -, hr⟩⟩ := reqServLeave_cases s a c
  · rw [hs] at hk
    cases hk
  · rw [hs] at hs₁
    cases hs₁
    omega
  · rw [hs] at hs₁
    cases hs₁
    refine ⟨_, hr, h.storeServer ?_⟩
    have hpos := List.length_pos_of_ne_nil hne
    rw [Server.subs, srvr.subChannels.length_live] at hpos
    rw [numChnnls_setNumChnnls_pred, Server.numChnnls]
    omega

theorem hasIdLoop_error {id : Id} {xs : List Id} {n : ℕ} {f : Fault}
    (h : hasIdLoop id xs n = .error f) : f = .read := by
  induction xs generalizing n with
  | nil => cases n <;> cases h; rfl
  | cons x xs ih =>
    cases n with
    | zero => cases h
    | succ n =>
      rw [hasIdLoop] at h
      split at h
      · cases h
      · exact ih h

/-- The channel is held. -/
theorem reqServSay {m : SayS2S} (h : Sound s) (hc : m.reqChannel ∈ s.names) :
    Safe Sound (DuckChat.reqServSay s a m) := by
  obtain ⟨chnl, hf⟩ := Option.isSome_iff_exists.mp (isSome_findChannel_iff.mpr hc)
  have hch := h.users chnl (findChannel_some hf).1
  have hids : ∀ ids, Sound (s.recorded ids) := fun ids =>
    ⟨h.channels, h.allUsers, h.tables, h.users⟩
  cases hd : hasId s.recentIds m.id with
  | error f =>
    rw [DuckChat.reqServSay, hd, hasIdLoop_error hd]
    exact trivial
  | ok dup =>
    cases dup with
    | true =>
      rw [DuckChat.reqServSay, hd]
      exact h
    | false =>
      cases hr : s.recentIds.record m.id with
      | error f =>
        rw [RecentIds.record_error hr] at hr
        rw [DuckChat.reqServSay, hd, hr]
        exact trivial
      | ok ids =>
        rw [reqServSay_eq hd hr hf hch.2]
        split
        · exact hids ids
        · exact hids ids

end Sound

/-! ### In a network -/

/-- A table has grown beyond its size somewhere. -/
def Net.Overrun {ι : Type} (n : Net ι) : Prop := ∃ i f, n.node i = .faulted f ∧ f.Overrun

theorem Net.not_overrun_of_isRunning {ι : Type} {n : Net ι} (h : ∀ i, (n.node i).isRunning) :
    ¬ n.Overrun := by
  rintro ⟨i, f, hf, -⟩
  have := h i
  rw [hf] at this
  cases this

theorem Net.Overrun.of_step {ι : Type} [DecidableEq ι] {addr : ι ↪ Sockaddr} {n n' : Net ι}
    {a : Action ι} (h : n.Overrun) (hst : Net.step addr n a = some n') : n'.Overrun := by
  obtain ⟨i, f, hf, ho⟩ := h
  exact ⟨i, f, Net.faulted_of_step hst hf, ho⟩

/-- A safe input overruns a table or ends well. -/
theorem Net.overrun_or_ok {ι : Type} [DecidableEq ι] {n n₀ : Net ι} {i : ι} {s : ServerState}
    {inp : Input} (addr : ι ↪ Sockaddr) (hs : n.node i = .running s) (h₀ : n₀.node = n.node)
    (hsafe : Safe Sound (react s inp)) :
    (n₀.act addr i inp).Overrun ∨
      ∃ s', (react s inp).result = .ok s' ∧ Sound s' ∧ (n₀.act addr i inp).node i = .running s' ∧
        (∀ j, j ≠ i → (n₀.act addr i inp).node j = n.node j) ∧
        (n₀.act addr i inp).flight = n₀.flight ++ packets (addr i) (react s inp).out := by
  rcases n₀.act_cases addr i inp with ⟨f, hf, -⟩ | ⟨t, ht, hi, hj, hfl, -⟩
  · rw [h₀, hs] at hf
    cases hf
  · rw [h₀, hs] at ht
    cases ht
    cases hr : (react s inp).result with
    | error f =>
      rw [hr] at hi
      exact Or.inl ⟨i, f, hi, hsafe.result_error hr⟩
    | ok s' =>
      rw [hr] at hi
      exact Or.inr
        ⟨s', rfl, hsafe.result_ok hr, hi, fun j hne => (hj j hne).trans (by rw [h₀]), hfl⟩

end DuckChat
