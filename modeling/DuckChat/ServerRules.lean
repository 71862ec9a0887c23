import DuckChat.Network

/-!
# What each handler can do

One lemma per branch of the `switch`, read off the handler once; the results about runs use these
and never unfold a handler again. A lemma `reqX_ok` says what a handler that ends well did to the
tables, and `reqX_out` what it sent, however it ended.

## Main definitions

* `ServerState.names`, `ServerState.subsOf`, `ServerState.usersOf` — the tables, by name
* `Server.Within` — a record that lost some of its last subscriptions
* `Outcome` — what an input does to the state

## Main results

* `reqLogin_ok`, `reqJoin_ok`, `reqLeave_ok`, `reqSay_cases`, `reqServJoin_cases`,
  `reqServJoin_ok`, `reqServLeave_cases`, `reqServSay_cases`, …
* `outcome_of_react` — one case for each thing that an input can do to the state
* `neighbours_of_react` — no input changes who the neighbours are
* `Reachable.nodup_names` — no name is in the table twice
-/

set_option autoImplicit false

namespace DuckChat

/-! ### Views of the tables -/

namespace ServerState

/-- The names of the channels the server holds. -/
def names (s : ServerState) : List Name := chnlNames s.channels

/-- The channels listed in the table of the neighbour with an address. -/
def subsOf (s : ServerState) (a : Sockaddr) : List Name :=
  match findServerAddress s.cnnctSrvrs a with
  | some srvr => srvr.subs
  | none => []

/-- The entries of the channel with a name, none if there is no such channel. -/
def usersOf (s : ServerState) (c : Name) : List (Option User) :=
  match findChannel s.channels c with
  | some chnl => chnl.entries
  | none => []

end ServerState

theorem subsOf_congr {s s' : ServerState} (h : s'.cnnctSrvrs = s.cnnctSrvrs) :
    s'.subsOf = s.subsOf := by
  funext a
  rw [ServerState.subsOf, ServerState.subsOf, h]

theorem mem_neighbours_of_mem_subsOf {s : ServerState} {a : Sockaddr} {c : Name}
    (h : c ∈ s.subsOf a) : a ∈ s.neighbours := by
  rw [ServerState.subsOf] at h
  split at h
  · next srvr hs => exact isSome_findServerAddress_iff.mp (by rw [hs]; rfl)
  · exact absurd h List.not_mem_nil

/-! ### The state at start -/

theorem subsOf_start {addrs : List Sockaddr} {unset now : ℤ} {a : Sockaddr} {c : Name} :
    c ∈ (ServerState.start addrs unset now).subsOf a ↔ a ∈ addrs ∧ c = common := by
  rw [ServerState.subsOf]
  split
  · next srvr hs =>
    obtain ⟨hm, ha⟩ := findServerAddress_some hs
    obtain ⟨b, hb, rfl⟩ := List.mem_map.mp hm
    have hab : b = a := ha
    subst hab
    simp [startServer, Server.subs, hb]
  · next hs =>
    rw [findServerAddress_eq_none_iff] at hs
    have hna : a ∉ addrs := fun ha => hs (by
      rw [ServerState.start, List.map_map]
      exact List.mem_map.mpr ⟨a, ha, rfl⟩)
    simp [hna]

theorem names_start {addrs : List Sockaddr} {unset now : ℤ} :
    (ServerState.start addrs unset now).names = [common] := rfl

theorem neighbours_start {addrs : List Sockaddr} {unset now : ℤ} :
    (ServerState.start addrs unset now).neighbours = addrs := by
  simp [ServerState.neighbours, ServerState.start, startServer, Function.comp_def]

/-! ### Packets among the datagrams -/

section Packets

variable {src : Sockaddr} {xs ys : List Datagram}

@[simp] theorem packets_nil : packets src [] = [] := rfl

@[simp] theorem packets_append : packets src (xs ++ ys) = packets src xs ++ packets src ys :=
  List.filterMap_append

@[simp] theorem packets_cons_text (b : Sockaddr) (t : Text) :
    packets src (⟨b, .text t⟩ :: xs) = packets src xs := rfl

@[simp] theorem packets_cons_s2s (b : Sockaddr) (m : S2S) :
    packets src (⟨b, .s2s m⟩ :: xs) = ⟨src, b, m⟩ :: packets src xs := rfl

@[simp] theorem packets_map_s2s {α : Type} (l : List α) (f : α → Sockaddr) (m : S2S) :
    packets src (l.map fun x => ⟨f x, .s2s m⟩) = l.map fun x => ⟨src, f x, m⟩ := by
  induction l with
  | nil => rfl
  | cons x l ih => rw [List.map_cons, packets_cons_s2s, ih, List.map_cons]

/-- Texts put nothing on the wires between servers. -/
theorem packets_eq_nil (h : ∀ d ∈ xs, ∃ t, d.payload = .text t) : packets src xs = [] := by
  induction xs with
  | nil => rfl
  | cons d xs ih =>
    obtain ⟨t, ht⟩ := h d List.mem_cons_self
    have hd : d = ⟨d.dest, .text t⟩ := by rw [← ht]
    rw [hd, packets_cons_text, ih fun e he => h e (List.mem_cons_of_mem _ he)]

end Packets

/-! ### Requests of clients that leave the neighbours and the window alone -/

section Frame

variable {s s' : ServerState} {a b : Sockaddr} {c : Name} {now : ℤ}

theorem onSlotZero_eq_ok_iff {f : Channel → Except Fault Channel} :
    onSlotZero s f = .ok s' ↔ (s.channels.live = [] ∧ s' = s) ∨
      ∃ chnl chnls chnl', s.channels.live = chnl :: chnls ∧ f chnl = .ok chnl' ∧
        s' = { s with channels := s.channels.overwrite (chnl' :: chnls) } := by
  rw [onSlotZero]
  cases hl : s.channels.live with
  | nil => simp [eq_comm]
  | cons chnl chnls =>
    simp only
    cases hf : f chnl with
    | error e =>
      refine iff_of_false (fun h => by cases h) ?_
      rintro (⟨h, -⟩ | ⟨_, _, chnl', h, hok, -⟩)
      · cases h
      · cases h
        cases hf.symm.trans hok
    | ok chnl' =>
      constructor
      · intro h
        cases h
        exact Or.inr ⟨chnl, chnls, chnl', rfl, hf, rfl⟩
      · rintro (⟨h, -⟩ | ⟨_, _, x, h, hok, rfl⟩)
        · cases h
        · cases h
          cases hf.symm.trans hok
          rfl

/-- The channel that `create_user` followed by `remove_user` leaves behind. -/
def LoginChannel (heap : List User) (usr : User) (chnl chnl' : Channel) : Prop :=
  ∃ mid ret, createUser chnl usr = .ok mid ∧
    removeUser (usr :: heap) mid usr.username = .ok (ret, chnl')

theorem loginChannel_iff {heap : List User} {usr : User} {chnl chnl' : Channel} :
    (do let chnl ← createUser chnl usr
        let (_, chnl) ← removeUser (usr :: heap) chnl usr.username
        pure chnl) = .ok chnl' ↔ LoginChannel heap usr chnl chnl' := by
  rw [LoginChannel]
  cases hc : createUser chnl usr with
  | error e =>
    refine iff_of_false (fun h => by cases h) ?_
    rintro ⟨_, _, hmid, -⟩
    cases hmid
  | ok mid =>
    cases hr : removeUser (usr :: heap) mid usr.username with
    | error e =>
      simp only [bind, Except.bind, hr]
      refine iff_of_false (fun h => by cases h) ?_
      rintro ⟨_, _, hmid, hret⟩
      cases hmid
      cases hr.symm.trans hret
    | ok r =>
      simp only [bind, Except.bind, hr]
      constructor
      · intro h
        cases h
        exact ⟨mid, r.1, rfl, hr⟩
      · rintro ⟨_, _, hmid, hret⟩
        cases hmid
        cases hr.symm.trans hret
        rfl

/-- **`REQ_LOGIN`** appends the user and passes one channel, the first, through an insertion and a
removal. -/
theorem reqLogin_iff {u : Username} :
    (reqLogin s a u).result = .ok s' ↔
      ∃ users, store s.allUsers ⟨s.heapNext, u, a⟩ = .ok users ∧
        ((s.channels.live = [] ∧ s' = { s with heapNext := s.heapNext + 1, allUsers := users }) ∨
          ∃ chnl chnls chnl', s.channels.live = chnl :: chnls ∧
            LoginChannel s.heap ⟨s.heapNext, u, a⟩ chnl chnl' ∧
            s' = { s with
              heapNext := s.heapNext + 1
              allUsers := users
              channels := s.channels.overwrite (chnl' :: chnls) }) := by
  rw [reqLogin]
  simp only [Emit.bind_eq_ok_iff, Emit.lift_eq, onSlotZero_eq_ok_iff, loginChannel_iff,
    Emit.pure_eq, Except.ok.injEq]
  constructor
  · rintro ⟨_, ⟨hl, rfl⟩ | ⟨chnl, chnls, chnl', hl, hlogin, rfl⟩, users, hu, rfl⟩
    · exact ⟨users, hu, Or.inl ⟨hl, rfl⟩⟩
    · exact ⟨users, hu, Or.inr ⟨chnl, chnls, chnl', hl, hlogin, rfl⟩⟩
  · rintro ⟨users, hu, ⟨hl, rfl⟩ | ⟨chnl, chnls, chnl', hl, hlogin, rfl⟩⟩
    · exact ⟨_, Or.inl ⟨hl, rfl⟩, users, hu, rfl⟩
    · exact ⟨_, Or.inr ⟨chnl, chnls, chnl', hl, hlogin, rfl⟩, users, hu, rfl⟩

theorem reqLogin_ok {u : Username} (h : (reqLogin s a u).result = .ok s') :
    s'.cnnctSrvrs = s.cnnctSrvrs ∧ s'.recentIds = s.recentIds ∧ s'.heapNext = s.heapNext + 1 ∧
      store s.allUsers ⟨s.heapNext, u, a⟩ = .ok s'.allUsers ∧
      ((s.channels.live = [] ∧ s'.channels = s.channels) ∨
        ∃ chnl chnls chnl', s.channels.live = chnl :: chnls ∧
          LoginChannel s.heap ⟨s.heapNext, u, a⟩ chnl chnl' ∧
          s'.channels = s.channels.overwrite (chnl' :: chnls)) := by
  obtain ⟨users, hu, ⟨hl, rfl⟩ | ⟨chnl, chnls, chnl', hl, hlogin, rfl⟩⟩ := reqLogin_iff.mp h
  · exact ⟨rfl, rfl, rfl, hu, Or.inl ⟨hl, rfl⟩⟩
  · exact ⟨rfl, rfl, rfl, hu, Or.inr ⟨chnl, chnls, chnl', hl, hlogin, rfl⟩⟩

theorem reqLogin_out (s : ServerState) (a : Sockaddr) (u : Username) :
    (reqLogin s a u).out = [] := by
  exact Emit.out_lift_bind_eq_nil fun _ => Emit.out_lift_bind_eq_nil fun _ => rfl

/-- **`REQ_JOIN`**: the channel exists afterwards and has one entry more, the requester's user or
`NULL`. -/
theorem reqJoin_ok (h : (reqJoin s a c now).result = .ok s') :
    s'.cnnctSrvrs = s.cnnctSrvrs ∧ s'.recentIds = s.recentIds ∧ s'.allUsers = s.allUsers ∧
      s'.heapNext = s.heapNext ∧
      ∃ chnls chnl chnl',
        ((findChannel s.channels c = some chnl ∧ chnls = s.channels) ∨
          (findChannel s.channels c = none ∧ chnl = createChannel c now ∧
            addChnl s.channels c now = .ok chnls)) ∧
        addUser chnl (findUser s.allUsers a) = .ok chnl' ∧
        s'.channels = storeChannel chnls c chnl' := by
  rw [reqJoin, Emit.bind_eq_ok_iff] at h
  obtain ⟨_, -, h⟩ := h
  rw [Emit.bind_eq_ok_iff] at h
  obtain ⟨⟨chnls, chnl⟩, h₁, h⟩ := h
  rw [Emit.bind_eq_ok_iff] at h
  obtain ⟨chnl', h₂, h⟩ := h
  cases h
  refine ⟨rfl, rfl, rfl, rfl, chnls, chnl, chnl', ?_, h₂, rfl⟩
  simp only [Emit.lift_eq] at h₁
  split at h₁
  · next ch hf => cases h₁; exact Or.inl ⟨hf, rfl⟩
  · next hf =>
    cases ha : addChnl s.channels c now with
    | error e => rw [ha] at h₁; cases h₁
    | ok t => rw [ha] at h₁; cases h₁; exact Or.inr ⟨hf, rfl, rfl⟩

theorem names_reqLogin {u : Username} (h : (reqLogin s a u).result = .ok s') :
    s'.names = s.names := by
  obtain ⟨-, -, -, -, ⟨-, hc⟩ | ⟨chnl, chnls, chnl', hl, ⟨mid, ret, hm, hr⟩, hc⟩⟩ := reqLogin_ok h
  · rw [ServerState.names, hc, ServerState.names]
  · have hn : chnl'.chnlName = chnl.chnlName :=
      (removeUser_ok hr).1.trans (addUser_eq_ok_iff.mp hm).2.2.2.2.1
    rw [ServerState.names, hc, chnlNames, Table.live_overwrite (by rw [hl]; rfl), ServerState.names,
      chnlNames, hl, List.map_cons, List.map_cons, hn]

/-- The channel of a join exists afterwards; nothing else changes about the names. -/
theorem names_reqJoin (h : (reqJoin s a c now).result = .ok s') :
    s'.names = if c ∈ s.names then s.names else s.names ++ [c] := by
  obtain ⟨-, -, -, -, chnls, chnl, chnl', hk, hadd, hc⟩ := reqJoin_ok h
  have hn' : chnl'.chnlName = chnl.chnlName := (addUser_eq_ok_iff.mp hadd).2.2.2.2.1
  rcases hk with ⟨hf, rfl⟩ | ⟨hf, rfl, ht⟩
  · have hn : chnl'.chnlName = c := hn'.trans (findChannel_some hf).2
    have hmem : c ∈ s.names := mem_chnlNames_of_find hf
    rw [if_pos hmem, ServerState.names, hc, chnlNames_storeChannel hn,
      ServerState.names]
  · have hmem : c ∉ s.names := findChannel_eq_none_iff.mp hf
    have hn : chnl'.chnlName = c := hn'
    rw [if_neg hmem, ServerState.names, hc, chnlNames_storeChannel hn, chnlNames_addChnl ht,
      ServerState.names]

/-- A table that differs in renewal times only has the same entries. -/
theorem usersOf_congr
    (h : s'.channels.live.map (fun chnl => (chnl.chnlName, chnl.entries)) =
      s.channels.live.map fun chnl => (chnl.chnlName, chnl.entries)) : s'.usersOf = s.usersOf := by
  have key : ∀ (t : ServerState) (d : Name), t.usersOf d =
      (((t.channels.live.map fun chnl => (chnl.chnlName, chnl.entries)).find? fun x => x.1 == d).map
        Prod.snd).getD [] := by
    intro t d
    rw [List.find?_map, ServerState.usersOf, findChannel]
    show _ = (Option.map Prod.snd (Option.map _ (t.channels.live.find? (chnlCmp d)))).getD []
    cases t.channels.live.find? (chnlCmp d) <;> rfl
  funext d
  rw [key s', key s, h]

/-- A login leaves no trace in the channels, unless the name is among the entries already. -/
theorem usersOf_reqLogin {u : Username} (h : (reqLogin s a u).result = .ok s')
    (hnew : ∀ chnl ∈ s.channels.live, ∀ e ∈ chnl.entries,
      hasUser (fun v => v.username == u) e = false) :
    s'.usersOf = s.usersOf := by
  obtain ⟨-, -, -, -, ⟨-, hc⟩ | ⟨chnl, chnls, chnl', hl, ⟨mid, ret, hm, hr⟩, hc⟩⟩ := reqLogin_ok h
  · funext d
    rw [ServerState.usersOf, hc, ServerState.usersOf]
  · obtain ⟨-, -, hlive, -, hname, -⟩ := addUser_eq_ok_iff.mp hm
    have hhere : some (⟨s.heapNext, u, a⟩ : User) ∈ mid.connectedUsers.live := by
      show _ ∈ mid.entries
      rw [hlive]
      exact List.mem_append_right _ (List.mem_singleton_self _)
    have hentries : chnl'.entries = chnl.entries := by
      rw [removeUser] at hr
      split at hr
      · cases hr
      · cases hr
        show (mid.connectedUsers.remove _).live = _
        rw [Table.live_remove_of_mem hhere (beq_self_eq_true u)]
        show mid.entries.eraseP _ = _
        rw [hlive, List.eraseP_append_right]
        · simp [hasUser]
        · intro e he
          rw [hnew chnl (by rw [hl]; exact List.mem_cons_self) e he]
          exact Bool.false_ne_true
    refine usersOf_congr ?_
    rw [hc, Table.live_overwrite (by rw [hl]; rfl), hl, List.map_cons, List.map_cons, hentries,
      (removeUser_ok hr).1, hname]

/-- A join appends the requester, or `NULL`, to the entries of its channel. -/
theorem usersOf_reqJoin (h : (reqJoin s a c now).result = .ok s') (d : Name) :
    s'.usersOf d = if d = c then s.usersOf c ++ [findUser s.allUsers a] else s.usersOf d := by
  obtain ⟨-, -, -, -, chnls, chnl, chnl', hk, hadd, hc⟩ := reqJoin_ok h
  obtain ⟨-, -, hlive, -, hname, -⟩ := addUser_eq_ok_iff.mp hadd
  rcases hk with ⟨hf, rfl⟩ | ⟨hf, rfl, ht⟩
  · have hn : chnl'.chnlName = c := hname.trans (findChannel_some hf).2
    split
    · next hd =>
      rw [hd, ServerState.usersOf, hc,
        findChannel_storeChannel_self hn (mem_chnlNames_of_find hf), ServerState.usersOf, hf]
      exact hlive
    · next hd =>
      rw [ServerState.usersOf, hc, findChannel_storeChannel_of_ne hn hd, ServerState.usersOf]
  · have hn : chnl'.chnlName = c := hname
    split
    · next hd =>
      rw [hd, ServerState.usersOf, hc, findChannel_storeChannel_self hn, ServerState.usersOf, hf]
      · exact hlive
      · rw [chnlNames_addChnl ht]
        exact List.mem_append_right _ (List.mem_singleton_self _)
    · next hd =>
      rw [ServerState.usersOf, hc, findChannel_storeChannel_of_ne hn hd,
        findChannel_addChnl_of_ne ht hd, ServerState.usersOf]

theorem reqJoin_out (s : ServerState) (a : Sockaddr) (c : Name) (now : ℤ) :
    (reqJoin s a c now).out = s.neighbours.map fun b => ⟨b, .s2s (.join c)⟩ := by
  rw [reqJoin, broadcast, Emit.emitAll_bind,
    Emit.out_lift_bind_eq_nil fun _ => Emit.out_lift_bind_eq_nil fun _ => rfl, List.append_nil]
  rfl

/-- **`REQ_LEAVE`**: nothing for an unknown channel; otherwise the requester's name is removed from
the channel, and the channel goes, with an announcement, exactly when the counter reaches 0. -/
theorem reqLeave_ok (h : (reqLeave s a c).result = .ok s') :
    (findChannel s.channels c = none ∧ s' = s ∧ packets b (reqLeave s a c).out = []) ∨
      ∃ chnl ret chnl', findChannel s.channels c = some chnl ∧
        removeUserOf s.heap chnl (findUser s.allUsers a) = .ok (ret, chnl') ∧
        ((chnl'.numUsers ≠ 0 ∧ s' = { s with channels := storeChannel s.channels c chnl' } ∧
            (reqLeave s a c).out = []) ∨
          (chnl'.numUsers = 0 ∧
            s' = { s with channels := removeChnl (storeChannel s.channels c chnl') c } ∧
            (reqLeave s a c).out = s.neighbours.map fun b => ⟨b, .s2s (.leave c)⟩)) := by
  cases hf : findChannel s.channels c with
  | none =>
    have he : reqLeave s a c = ⟨[⟨a, .text (fillError c)⟩], .ok s⟩ := by rw [reqLeave, hf]; rfl
    rw [he] at h ⊢
    cases h
    exact Or.inl ⟨rfl, rfl, rfl⟩
  | some chnl =>
    rw [reqLeave, hf] at h ⊢
    obtain ⟨⟨ret, chnl'⟩, hr, h⟩ := Emit.bind_eq_ok_iff.mp h
    rw [Emit.out_bind_of_ok hr]
    have hn : chnl'.chnlName = c := (removeUserOf_ok hr).1.trans (findChannel_some hf).2
    refine Or.inr ⟨chnl, ret, chnl', rfl, hr, ?_⟩
    by_cases h0 : chnl'.numUsers = 0
    · simp only [if_pos h0] at h ⊢
      cases h
      refine Or.inr ⟨h0, rfl, ?_⟩
      simp [broadcast, hn, s2sFillLeave]
    · simp only [if_neg h0] at h ⊢
      cases h
      exact Or.inl ⟨h0, rfl, rfl⟩

/-- A leave changes the table of channels only. -/
theorem channels_of_reqLeave (h : (reqLeave s a c).result = .ok s') :
    ∃ chnls, s' = { s with channels := chnls } := by
  rcases reqLeave_ok (b := a) h with
    ⟨-, rfl, -⟩ | ⟨_, _, _, -, -, ⟨-, rfl, -⟩ | ⟨-, rfl, -⟩⟩
  · exact ⟨_, rfl⟩
  · exact ⟨_, rfl⟩
  · exact ⟨_, rfl⟩

/-- The leave of the last user takes the channel away. -/
theorem names_reqLeave_last {chnl : Channel} (h : (reqLeave s a c).result = .ok s')
    (hf : findChannel s.channels c = some chnl) (h1 : chnl.numUsers = 1) :
    s'.names = s.names.erase c := by
  rcases reqLeave_ok (b := a) h with ⟨hnone, -⟩ |
    ⟨chnl', ret, left, hf', hr, ⟨h0, -⟩ | ⟨-, rfl, -⟩⟩
  · rw [hf] at hnone
    cases hnone
  all_goals
    obtain rfl : chnl = chnl' := Option.some.inj (hf.symm.trans hf')
  · have := (removeUserOf_ok hr).2.2.1
    omega
  · have hn : left.chnlName = c := (removeUserOf_ok hr).1.trans (findChannel_some hf).2
    have hst : chnlNames (storeChannel s.channels c left) = s.names := chnlNames_storeChannel hn
    show chnlNames (removeChnl (storeChannel s.channels c left) c) = _
    rw [chnlNames_removeChnl (by rw [hst]; exact mem_chnlNames_of_find hf), hst]

/-- The names after a leave: the channel goes when its counter reaches 0. -/
theorem names_reqLeave (h : (reqLeave s a c).result = .ok s') :
    s'.names = s.names ∨
      ∃ chnl, findChannel s.channels c = some chnl ∧ chnl.numUsers = 1 ∧
        s'.names = s.names.erase c := by
  rcases reqLeave_ok (b := a) h with ⟨-, rfl, -⟩ |
    ⟨chnl, ret, chnl', hf, hr, ⟨-, rfl, -⟩ | ⟨h0, -⟩⟩
  · exact Or.inl rfl
  · exact Or.inl (chnlNames_storeChannel ((removeUserOf_ok hr).1.trans (findChannel_some hf).2))
  · have h1 : chnl.numUsers = 1 := by
      have := (removeUserOf_ok hr).2.2.1
      omega
    exact Or.inr ⟨chnl, hf, h1, names_reqLeave_last h hf h1⟩

/-- To servers, `REQ_LEAVE` sends leaves of the channel only. -/
theorem mem_packets_reqLeave {p : Packet} (h : p ∈ packets b (reqLeave s a c).out) :
    ∃ d ∈ s.neighbours, p = ⟨b, d, .leave c⟩ := by
  cases hf : findChannel s.channels c with
  | none =>
    have he : reqLeave s a c = ⟨[⟨a, .text (fillError c)⟩], .ok s⟩ := by rw [reqLeave, hf]; rfl
    rw [he] at h
    exact absurd h List.not_mem_nil
  | some chnl =>
    cases hr : (reqLeave s a c).result with
    | ok s' =>
      rcases reqLeave_ok (b := b) hr with ⟨hn, -⟩ | ⟨_, _, _, -, -, ⟨-, -, ho⟩ | ⟨-, -, ho⟩⟩
      · rw [hn] at hf
        cases hf
      · rw [ho] at h
        exact absurd h List.not_mem_nil
      · rw [ho, packets_map_s2s] at h
        obtain ⟨d, hd, rfl⟩ := List.mem_map.mp h
        exact ⟨d, hd, rfl⟩
    | error f =>
      rw [reqLeave, hf] at h hr
      cases h₂ : removeUserOf s.heap chnl (findUser s.allUsers a) with
      | error e =>
        simp only [h₂] at h
        exact absurd h List.not_mem_nil
      | ok r =>
        simp only [h₂, Emit.lift_eq, Emit.mk_ok_bind] at hr
        split at hr <;> cases hr

/-- `REQ_LIST` and `REQ_WHO` change nothing. -/
theorem reqList_ok (h : (reqList s a).result = .ok s') : s' = s := by
  cases h
  rfl

theorem reqWho_ok (h : (reqWho s a c).result = .ok s') : s' = s := by
  simp only [reqWho] at h
  split at h
  · cases h
  · split at h
    · cases h; rfl
    · obtain ⟨names, -, h⟩ := Emit.bind_eq_ok_iff.mp h
      cases h
      rfl

theorem packets_reqWho_out (s : ServerState) (a : Sockaddr) (c : Name) :
    packets b (reqWho s a c).out = [] := by
  have htext : ∀ t : Text, (sendText a t).Sends fun d => ∃ x, d.payload = .text x :=
    fun t => Emit.sends_emit ⟨t, rfl⟩
  have hsends : (reqWho s a c).Sends fun d => ∃ x, d.payload = .text x := by
    rw [reqWho]
    split
    · exact Emit.sends_lift _
    · split
      · exact (htext _).bind fun _ _ => Emit.sends_pure _
      · exact (Emit.sends_lift _).bind fun _ _ => (htext _).bind fun _ _ => Emit.sends_pure _
  exact packets_eq_nil hsends

theorem names_logoutLoop {heap : List User} {usr : Option User} {chnls chnls' : List Channel}
    (h : logoutLoop heap usr chnls = .ok chnls') :
    chnls'.map Channel.chnlName = chnls.map Channel.chnlName := by
  induction chnls generalizing chnls' with
  | nil => cases h; rfl
  | cons chnl chnls ih =>
    rw [logoutLoop] at h
    cases hr : removeUserOf heap chnl usr with
    | error e => rw [hr] at h; cases h
    | ok r =>
      cases hl : logoutLoop heap usr chnls with
      | error e => rw [hr] at h; simp only [hl, bind, Except.bind] at h; cases h
      | ok rest =>
        rw [hr] at h
        simp only [hl, bind, Except.bind] at h
        cases h
        rw [List.map_cons, List.map_cons, ih hl, (removeUserOf_ok hr).1]

/-- **`REQ_LOGOUT`** leaves the names of the channels, the neighbours and the window alone. -/
theorem reqLogout_ok (h : (reqLogout s a).result = .ok s') :
    s'.cnnctSrvrs = s.cnnctSrvrs ∧ s'.recentIds = s.recentIds ∧ s'.names = s.names := by
  rw [reqLogout] at h
  obtain ⟨chnls, h₂, h⟩ := Emit.bind_eq_ok_iff.mp h
  split at h
  · cases h
  cases h
  have hn := names_logoutLoop h₂
  have hlen : chnls.length = s.channels.live.length := by
    rw [← List.length_map Channel.chnlName, hn, List.length_map]
  refine ⟨rfl, rfl, ?_⟩
  simp only [ServerState.names, chnlNames]
  rw [Table.live_overwrite hlen, hn]

theorem reqLogout_out (s : ServerState) (a : Sockaddr) : (reqLogout s a).out = [] :=
  Emit.out_lift_bind_eq_nil fun _ => by split <;> rfl

/-! ### `REQ_SAY` -/

theorem sayLoop_out_text {heap : List User} {chnl : Channel} {t : SayText} {es : List (Option User)}
    {d : Datagram} (h : d ∈ (sayLoop heap chnl a c t es).out) : ∃ x, d.payload = .text x := by
  have hsends : (sayLoop heap chnl a c t es).Sends fun d => ∃ x, d.payload = .text x := by
    clear h
    induction es with
    | nil => exact Emit.sends_pure _
    | cons e es ih =>
      refine (Emit.sends_lift _).bind fun found _ => (Emit.sends_lift _).bind fun speaker _ =>
        (Emit.sends_lift _).bind fun usr _ => (Emit.sends_emit ?_).bind fun _ _ => ih
      exact ⟨_, rfl⟩
  exact hsends d h

/-- **`REQ_SAY`** either faults before anything is sent to a server, or records the drawn
identifier and sends one packet to each neighbour that lists the channel. -/
theorem reqSay_cases (s : ServerState) (a : Sockaddr) (c : Name) (t : SayText) (drawn : Id) :
    (∃ f, (reqSay s a c t drawn).result = .error f ∧
        ∀ b, packets b (reqSay s a c t drawn).out = []) ∨
      ∃ chnl usr ids, findChannel s.channels c = some chnl ∧ findUser s.allUsers a = some usr ∧
        s.recentIds.record drawn = .ok ids ∧
        (sayLoop s.heap chnl a c t chnl.entries).result = .ok () ∧
        (reqSay s a c t drawn).result = .ok { s with recentIds := ids } ∧
        (reqSay s a c t drawn).out = (sayLoop s.heap chnl a c t chnl.entries).out ++
          sayPackets s (s2sFillSay c usr.username t drawn) := by
  cases hf : findChannel s.channels c with
  | none =>
    refine Or.inl ⟨.null, ?_⟩
    rw [reqSay, hf]
    exact ⟨rfl, fun _ => rfl⟩
  | some chnl =>
    have hl : ∀ b, packets b (sayLoop s.heap chnl a c t chnl.entries).out = [] :=
      fun b => packets_eq_nil fun d hd => sayLoop_out_text hd
    rw [reqSay, hf]
    simp only
    rcases hloop : sayLoop s.heap chnl a c t chnl.entries with ⟨o, f | ⟨⟩⟩
    · rw [hloop] at hl
      exact Or.inl ⟨f, rfl, hl⟩
    · rw [hloop] at hl
      cases hu : findUser s.allUsers a with
      | none => exact Or.inl ⟨.null, rfl, fun b => by simpa [nonNull] using hl b⟩
      | some usr =>
        cases hr : s.recentIds.record drawn with
        | error f => exact Or.inl ⟨f, rfl, fun b => by simpa [nonNull] using hl b⟩
        | ok ids =>
          refine Or.inr ⟨chnl, usr, ids, rfl, rfl, rfl, by rw [hloop], rfl, ?_⟩
          simp [nonNull, hloop]

end Frame

/-! ### Requests of servers -/

section S2S

variable {s s' : ServerState} {a b : Sockaddr} {c : Name} {now : ℤ}

theorem subsOf_eq {srvr : Server} (h : findServerAddress s.cnnctSrvrs a = some srvr) :
    s.subsOf a = srvr.subs := by
  rw [ServerState.subsOf, h]

theorem neighbours_storeServer {srvr : Server} (hn : srvr.addr = a)
    (h : s'.cnnctSrvrs = storeServer s.cnnctSrvrs a srvr) : s'.neighbours = s.neighbours := by
  rw [ServerState.neighbours, h, map_addr_storeServer hn, ServerState.neighbours]

theorem subsOf_storeServer_self {srvr : Server} (hn : srvr.addr = a) (ha : a ∈ s.neighbours)
    (h : s'.cnnctSrvrs = storeServer s.cnnctSrvrs a srvr) : s'.subsOf a = srvr.subs := by
  rw [ServerState.subsOf, h, findServerAddress_storeServer_self hn ha]

theorem subsOf_storeServer_of_ne {srvr : Server} (hn : srvr.addr = a) (hb : b ≠ a)
    (h : s'.cnnctSrvrs = storeServer s.cnnctSrvrs a srvr) : s'.subsOf b = s.subsOf b := by
  rw [ServerState.subsOf, h, findServerAddress_storeServer_of_ne hn hb, ServerState.subsOf]

theorem noteJoin_cases {srvr srvr' : Server} (h : noteJoin srvr c now = .ok srvr') :
    (∃ pos, findChannelServer srvr c = some pos ∧ srvr' = refreshTimer srvr pos now) ∨
      (findChannelServer srvr c = none ∧ addChSrv srvr c now = .ok srvr') := by
  unfold noteJoin at h
  cases hp : findChannelServer srvr c with
  | some pos => rw [hp] at h; cases h; exact Or.inl ⟨pos, rfl, rfl⟩
  | none => rw [hp] at h; exact Or.inr ⟨rfl, h⟩

theorem addr_noteJoin {srvr srvr' : Server} (h : noteJoin srvr c now = .ok srvr') :
    srvr'.addr = srvr.addr := by
  rcases noteJoin_cases h with ⟨pos, -, rfl⟩ | ⟨-, h⟩
  · rfl
  · exact (addChSrv_eq_ok_iff.mp h).2.2.1

theorem numChnnls_noteJoin {srvr srvr' : Server} (h : noteJoin srvr c now = .ok srvr')
    (h0 : 0 ≤ srvr.numChnnls) : 0 ≤ srvr'.numChnnls := by
  rcases noteJoin_cases h with ⟨pos, -, rfl⟩ | ⟨-, hadd⟩
  · exact h0
  · have := (addChSrv_eq_ok_iff.mp hadd).2.2.2.2.2
    omega

theorem mem_subs_noteJoin {srvr srvr' : Server} (h : noteJoin srvr c now = .ok srvr') (d : Name) :
    d ∈ srvr'.subs ↔ d ∈ srvr.subs ∨ d = c := by
  rcases noteJoin_cases h with ⟨pos, hp, rfl⟩ | ⟨-, h⟩
  · have hc : c ∈ srvr.subs := isSome_findChannelServer_iff.mp (by rw [hp]; rfl)
    constructor
    · exact Or.inl
    · rintro (h | rfl)
      · exact h
      · exact hc
  · rw [(addChSrv_eq_ok_iff.mp h).2.2.2.1, List.mem_append, List.mem_singleton]

/-- What a join does to the sender's record and to the others. -/
theorem mem_subsOf_storeServer_noteJoin {srvr srvr' : Server}
    (hs : findServerAddress s.cnnctSrvrs a = some srvr) (hj : noteJoin srvr c now = .ok srvr')
    (h : s'.cnnctSrvrs = storeServer s.cnnctSrvrs a srvr') (d : Name) :
    d ∈ s'.subsOf b ↔ d ∈ s.subsOf b ∨ (b = a ∧ d = c) := by
  have haddr : srvr'.addr = a := (addr_noteJoin hj).trans (findServerAddress_some hs).2
  have ha : a ∈ s.neighbours := isSome_findServerAddress_iff.mp (by rw [hs]; rfl)
  by_cases hb : b = a
  · subst hb
    rw [subsOf_storeServer_self haddr ha h, mem_subs_noteJoin hj, subsOf_eq hs]
    simp
  · rw [subsOf_storeServer_of_ne haddr hb h]
    simp [hb]

/-- **`REQ_SERV_JOIN`** either faults in silence, or updates the sender's record and, when the
channel is new here, creates it and passes the join on to every neighbour. -/
theorem reqServJoin_cases (s : ServerState) (a : Sockaddr) (c : Name) (now : ℤ) :
    (∃ f, (reqServJoin s a c now).result = .error f ∧ (reqServJoin s a c now).out = []) ∨
      ∃ srvr srvr' s₁, findServerAddress s.cnnctSrvrs a = some srvr ∧
        noteJoin srvr c now = .ok srvr' ∧
        s₁ = { s with cnnctSrvrs := storeServer s.cnnctSrvrs a srvr' } ∧
        ((c ∈ s.names ∧ (reqServJoin s a c now).result = .ok s₁ ∧
            (reqServJoin s a c now).out = []) ∨
          (c ∉ s.names ∧ ∃ chnls, addChnl s.channels c now = .ok chnls ∧
            (reqServJoin s a c now).result = .ok { s₁ with channels := chnls } ∧
            (reqServJoin s a c now).out = s.neighbours.map fun b => ⟨b, .s2s (.join c)⟩)) := by
  cases hs : findServerAddress s.cnnctSrvrs a with
  | none => exact Or.inl ⟨.null, by rw [reqServJoin, hs]; rfl, by rw [reqServJoin, hs]; rfl⟩
  | some srvr =>
    rw [reqServJoin, hs]
    simp only [nonNull, Emit.lift_eq, Emit.mk_ok_bind, List.nil_append]
    cases hj : noteJoin srvr c now with
    | error f => exact Or.inl ⟨f, rfl, rfl⟩
    | ok srvr' =>
    simp only [Emit.mk_ok_bind, List.nil_append]
    cases hf : findChannel s.channels c with
    | some ch =>
      exact Or.inr ⟨srvr, srvr', _, rfl, hj, rfl, Or.inl ⟨mem_chnlNames_of_find hf, rfl, rfl⟩⟩
    | none =>
      cases ha : addChnl s.channels c now with
      | error f => exact Or.inl ⟨f, rfl, rfl⟩
      | ok chnls =>
        refine Or.inr ⟨srvr, srvr', _, rfl, hj, rfl,
          Or.inr ⟨findChannel_eq_none_iff.mp hf, chnls, rfl, rfl, ?_⟩⟩
        have hn : ({ s with cnnctSrvrs := storeServer s.cnnctSrvrs a srvr' } :
            ServerState).neighbours = s.neighbours :=
          neighbours_storeServer ((addr_noteJoin hj).trans (findServerAddress_some hs).2) rfl
        simp [broadcast, hn, s2sFillJoin]

/-- When it ends well: the channel is noted, and it was there or is added. -/
theorem reqServJoin_ok (h : (reqServJoin s a c now).result = .ok s') :
    ∃ srvr srvr' chnls, findServerAddress s.cnnctSrvrs a = some srvr ∧
      noteJoin srvr c now = .ok srvr' ∧
      ((c ∈ s.names ∧ chnls = s.channels) ∨
        (c ∉ s.names ∧ addChnl s.channels c now = .ok chnls)) ∧
      s' = { s with
        cnnctSrvrs := storeServer s.cnnctSrvrs a srvr'
        channels := chnls } := by
  rcases reqServJoin_cases s a c now with
    ⟨f, hf, -⟩ | ⟨srvr, srvr', _, hs, hj, rfl, ⟨hc, hr, -⟩ | ⟨hc, chnls, hadd, hr, -⟩⟩
  · cases hf.symm.trans h
  · cases hr.symm.trans h
    exact ⟨srvr, srvr', _, hs, hj, Or.inl ⟨hc, rfl⟩, rfl⟩
  · cases hr.symm.trans h
    exact ⟨srvr, srvr', chnls, hs, hj, Or.inr ⟨hc, hadd⟩, rfl⟩

/-- A server that is told of a channel holds it. -/
theorem mem_names_reqServJoin (h : (reqServJoin s a c now).result = .ok s') : c ∈ s'.names := by
  obtain ⟨_, _, chnls, -, -, ⟨hc, rfl⟩ | ⟨-, hadd⟩, rfl⟩ := reqServJoin_ok h
  · exact hc
  · have hn : chnlNames chnls = s.names ++ [c] := chnlNames_addChnl hadd
    show c ∈ chnlNames chnls
    rw [hn]
    exact List.mem_append_right _ (List.mem_singleton_self _)

/-- **`REQ_SERV_LEAVE`** takes the last name off the sender's table. -/
theorem reqServLeave_cases (s : ServerState) (a : Sockaddr) (c : Name) :
    (reqServLeave s a c).out = [] ∧
      ((∃ f, (reqServLeave s a c).result = .error f ∧
          (findServerAddress s.cnnctSrvrs a = none ∨
            ∃ srvr, findServerAddress s.cnnctSrvrs a = some srvr ∧ srvr.numChnnls < 0)) ∨
        ∃ srvr, findServerAddress s.cnnctSrvrs a = some srvr ∧ 0 ≤ srvr.numChnnls ∧
          (reqServLeave s a c).result = .ok { s with
            cnnctSrvrs :=
              storeServer s.cnnctSrvrs a (srvr.setNumChnnls (srvr.numChnnls - 1)) }) := by
  cases hs : findServerAddress s.cnnctSrvrs a with
  | none =>
    rw [reqServLeave, hs]
    exact ⟨rfl, Or.inl ⟨.null, rfl, Or.inl rfl⟩⟩
  | some srvr =>
    rw [reqServLeave, hs]
    by_cases h : srvr.numChnnls < 0
    · simp only [nonNull, Emit.lift_eq, Emit.mk_ok_bind, removeAdjChannel_eq_error h]
      exact ⟨rfl, Or.inl ⟨.size, rfl, Or.inr ⟨srvr, rfl, h⟩⟩⟩
    · have h : 0 ≤ srvr.numChnnls := by omega
      simp only [nonNull, Emit.lift_eq, Emit.mk_ok_bind, removeAdjChannel_eq_ok h]
      exact ⟨rfl, Or.inr ⟨srvr, rfl, h, rfl⟩⟩

theorem exists_of_reqServLeave (h : (reqServLeave s a c).result = .ok s') :
    ∃ srvr, findServerAddress s.cnnctSrvrs a = some srvr ∧ 0 ≤ srvr.numChnnls ∧
      s' = { s with
        cnnctSrvrs := storeServer s.cnnctSrvrs a (srvr.setNumChnnls (srvr.numChnnls - 1)) } := by
  obtain ⟨-, ⟨f, hf, -⟩ | ⟨srvr, hs, h0, hr⟩⟩ := reqServLeave_cases s a c
  · cases hf.symm.trans h
  · cases hr.symm.trans h
    exact ⟨srvr, hs, h0, rfl⟩

theorem reqServLeave_ok (h : (reqServLeave s a c).result = .ok s') :
    s'.channels = s.channels ∧ s'.recentIds = s.recentIds ∧ s'.neighbours = s.neighbours ∧
      ∀ b, s'.subsOf b = if b = a then (s.subsOf a).dropLast else s.subsOf b := by
  obtain ⟨srvr, hs, -, rfl⟩ := exists_of_reqServLeave h
  have haddr : (srvr.setNumChnnls (srvr.numChnnls - 1)).addr = a := (findServerAddress_some hs).2
  have ha : a ∈ s.neighbours := isSome_findServerAddress_iff.mp (by rw [hs]; rfl)
  refine ⟨rfl, rfl, neighbours_storeServer haddr rfl, fun b => ?_⟩
  split
  · next hb =>
    rw [hb, subsOf_storeServer_self haddr ha rfl, subs_setNumChnnls_pred, subsOf_eq hs]
  · next hb => exact subsOf_storeServer_of_ne haddr hb rfl

theorem deliverLoop_out_text {heap : List User} {ts : Text} {es : List (Option User)}
    {d : Datagram} (h : d ∈ (deliverLoop heap ts es).out) : d.payload = .text ts := by
  have hsends : (deliverLoop heap ts es).Sends fun d => d.payload = .text ts := by
    clear h
    induction es with
    | nil => exact Emit.sends_pure _
    | cons e es ih =>
      refine (Emit.sends_lift _).bind fun usr _ => (Emit.sends_emit ?_).bind fun _ _ => ih
      rfl
  exact hsends d h

/-- What `REQ_SERV_SAY` does to the state when it does anything: it records the identifier. -/
def ServerState.recorded (s : ServerState) (ids : RecentIds) : ServerState :=
  { s with recentIds := ids }

/-- **`REQ_SERV_SAY`**: a duplicate is answered with a leave; a say that nobody here is interested
in is recorded and answered with a leave; any other is recorded, given to the local users and
forwarded. A fault happens before anything is sent to a server, and a duplicate is not even given
to the local users before it. -/
inductive ServSay (s : ServerState) (a : Sockaddr) (m : SayS2S) : Act ServerState → Prop where
  | fault {r : Act ServerState} (f : Fault) (hr : r.result = .error f)
      (ho : ∀ d ∈ r.out, d.payload = .text (fillTextSay m.reqChannel m.reqUsername m.reqText))
      (hd : r.out ≠ [] → hasId s.recentIds m.id = .ok false) : ServSay s a m r
  | duplicate (h : hasId s.recentIds m.id = .ok true) :
      ServSay s a m ⟨[⟨a, .s2s (.leave m.reqChannel)⟩], .ok s⟩
  | prune {ids : RecentIds} {active : Channel} (h : hasId s.recentIds m.id = .ok false)
      (hids : s.recentIds.record m.id = .ok ids)
      (hf : findChannel s.channels m.reqChannel = some active) (hu : active.numUsers = 0)
      (hs : hasChannelServers s.cnnctSrvrs m.reqChannel ≤ 1) :
      ServSay s a m ⟨[⟨a, .s2s (.leave m.reqChannel)⟩], .ok (s.recorded ids)⟩
  | forward {ids : RecentIds} {active : Channel} (h : hasId s.recentIds m.id = .ok false)
      (hids : s.recentIds.record m.id = .ok ids)
      (hf : findChannel s.channels m.reqChannel = some active)
      (hk : ¬ (active.numUsers = 0 ∧ hasChannelServers s.cnnctSrvrs m.reqChannel ≤ 1))
      (hl : (deliverLoop s.heap (fillTextSay m.reqChannel m.reqUsername m.reqText)
        active.entries).result = .ok ()) :
      ServSay s a m ⟨(deliverLoop s.heap (fillTextSay m.reqChannel m.reqUsername m.reqText)
        active.entries).out ++ forwardPackets s a m, .ok (s.recorded ids)⟩

theorem reqServSay_cases (s : ServerState) (a : Sockaddr) (m : SayS2S) :
    ServSay s a m (reqServSay s a m) := by
  have heq : reqServSay s a m = (Emit.lift (hasId s.recentIds m.id) >>= fun dup =>
      if dup then ⟨[⟨a, .s2s (.leave m.reqChannel)⟩], .ok s⟩
      else Emit.lift (s.recentIds.record m.id) >>= fun ids =>
        Emit.lift (nonNull (findChannel s.channels m.reqChannel)) >>= fun active =>
          if active.numUsers = 0 ∧ hasChannelServers s.cnnctSrvrs m.reqChannel ≤ 1 then
            ⟨[⟨a, .s2s (.leave m.reqChannel)⟩], .ok (s.recorded ids)⟩
          else deliverLoop s.heap (fillTextSay m.reqChannel m.reqUsername m.reqText)
            active.entries >>= fun _ => ⟨forwardPackets s a m, .ok (s.recorded ids)⟩) := by
    rw [reqServSay]
    simp only [sendS2S, s2sFillLeave, Emit.emit_bind, Emit.emitAll_bind, Emit.pure_eq,
      List.append_nil]
    rfl
  rw [heq]
  cases hd : hasId s.recentIds m.id with
  | error f => exact .fault f rfl (fun d hd => absurd hd List.not_mem_nil) fun h => absurd rfl h
  | ok dup =>
    simp only [Emit.lift_eq, Emit.mk_ok_bind, List.nil_append]
    cases dup with
    | true => exact .duplicate hd
    | false =>
      cases hids : s.recentIds.record m.id with
      | error f => exact .fault f rfl (fun d hd => absurd hd List.not_mem_nil) fun h => absurd rfl h
      | ok ids =>
        cases hf : findChannel s.channels m.reqChannel with
        | none =>
          exact .fault .null rfl (fun d hd => absurd hd List.not_mem_nil) fun h => absurd rfl h
        | some active =>
          simp only [nonNull, Emit.mk_ok_bind, List.nil_append, Bool.false_eq_true, if_false]
          by_cases hk : active.numUsers = 0 ∧ hasChannelServers s.cnnctSrvrs m.reqChannel ≤ 1
          · simp only [if_pos hk]
            exact .prune hd hids hf hk.1 hk.2
          · simp only [if_neg hk]
            rcases hl : deliverLoop s.heap (fillTextSay m.reqChannel m.reqUsername m.reqText)
              active.entries with ⟨o, f | ⟨⟩⟩
            · exact .fault f rfl (fun d hd => deliverLoop_out_text (by rw [hl]; exact hd))
                fun _ => hd
            · have := ServSay.forward (a := a) hd hids hf hk (by rw [hl])
              rw [hl] at this
              exact this

/-! The neighbours that a say is sent to, where each neighbour is listed once. -/

theorem findServerAddress_of_mem (hnd : s.neighbours.Nodup) {srvr : Server}
    (h : srvr ∈ s.cnnctSrvrs) : findServerAddress s.cnnctSrvrs srvr.addr = some srvr := by
  obtain ⟨srvr', hs⟩ := Option.isSome_iff_exists.mp
    (isSome_findServerAddress_iff.mpr (List.mem_map_of_mem (f := Server.addr) h))
  obtain ⟨hm, ha⟩ := findServerAddress_some hs
  rw [hs, List.inj_on_of_nodup_map hnd hm h ha]

theorem mem_sayPackets (hnd : s.neighbours.Nodup) {m : SayS2S} {d : Datagram} :
    d ∈ sayPackets s m ↔ ∃ b, m.reqChannel ∈ s.subsOf b ∧ d = ⟨b, .s2s (.say m)⟩ := by
  simp only [sayPackets, List.mem_map, List.mem_filter, isSome_findChannelServer_iff]
  constructor
  · rintro ⟨srvr, ⟨hm, hc⟩, rfl⟩
    exact ⟨srvr.addr, by rwa [subsOf_eq (findServerAddress_of_mem hnd hm)], rfl⟩
  · rintro ⟨b, hc, rfl⟩
    obtain ⟨srvr, hs⟩ := Option.isSome_iff_exists.mp
      (isSome_findServerAddress_iff.mpr (mem_neighbours_of_mem_subsOf hc))
    rw [subsOf_eq hs] at hc
    obtain ⟨hm, rfl⟩ := findServerAddress_some hs
    exact ⟨srvr, ⟨hm, hc⟩, rfl⟩

theorem mem_forwardPackets (hnd : s.neighbours.Nodup) {m : SayS2S} {d : Datagram} :
    d ∈ forwardPackets s a m ↔
      ∃ b, b ≠ a ∧ m.reqChannel ∈ s.subsOf b ∧ d = ⟨b, .s2s (.say m)⟩ := by
  have hne : ∀ b, (!addrCmp b a) = true ↔ b ≠ a := fun b => by
    rw [Bool.not_eq_true', ← Bool.not_eq_true, addrCmp_iff]
  simp only [forwardPackets, List.mem_map, List.mem_filter, Bool.and_eq_true, hne,
    isSome_findChannelServer_iff]
  constructor
  · rintro ⟨srvr, ⟨hm, hc, hb⟩, rfl⟩
    exact ⟨srvr.addr, hb, by rwa [subsOf_eq (findServerAddress_of_mem hnd hm)], rfl⟩
  · rintro ⟨b, hb, hc, rfl⟩
    obtain ⟨srvr, hs⟩ := Option.isSome_iff_exists.mp
      (isSome_findServerAddress_iff.mpr (mem_neighbours_of_mem_subsOf hc))
    rw [subsOf_eq hs] at hc
    obtain ⟨hm, rfl⟩ := findServerAddress_some hs
    exact ⟨srvr, ⟨hm, hc, hb⟩, rfl⟩

/-- Different packets to different neighbours. -/
theorem nodup_packets_map (hnd : s.neighbours.Nodup) (f : Server → Bool) (m : S2S) :
    (packets a ((s.cnnctSrvrs.filter f).map fun srvr => ⟨srvr.addr, .s2s m⟩)).Nodup := by
  rw [packets_map_s2s]
  refine List.Nodup.of_map Packet.dst ?_
  rw [List.map_map]
  exact (List.Sublist.map Server.addr List.filter_sublist).nodup hnd

end S2S

/-! ### Around the switch -/

section Around

variable {s s' : ServerState} {srvr srvr' srvr'' : Server} {now : ℤ}

/-- A record that lost some of its last subscriptions, with their timers. -/
structure Server.Within (srvr' srvr : Server) : Prop where
  addr : srvr'.addr = srvr.addr
  subs : srvr'.subs <+: srvr.subs
  timers : srvr'.timers.live <+: srvr.timers.live

theorem Server.Within.refl (srvr : Server) : srvr.Within srvr :=
  ⟨rfl, List.prefix_rfl, List.prefix_rfl⟩

theorem Server.Within.trans (h : srvr''.Within srvr') (h' : srvr'.Within srvr) :
    srvr''.Within srvr :=
  ⟨h.addr.trans h'.addr, h.subs.trans h'.subs, h.timers.trans h'.timers⟩

theorem within_setNumChnnls (srvr : Server) (n : ℤ) : (srvr.setNumChnnls n).Within srvr :=
  ⟨rfl, List.take_prefix _ _, List.take_prefix _ _⟩

theorem within_timeoutLoop {n j : ℕ} (h : timeoutLoop now n j srvr = .ok srvr') :
    srvr'.Within srvr := by
  induction n generalizing j srvr with
  | zero =>
    cases h
    exact .refl _
  | succ n ih =>
    rw [timeoutLoop] at h
    split at h
    · cases h
      exact .refl _
    · next name _ =>
      split at h
      · by_cases hn : srvr.numChnnls < 0
        · rw [removeAdjChannel_eq_error hn] at h
          cases h
        · rw [removeAdjChannel_eq_ok (by omega)] at h
          exact (ih h).trans (within_setNumChnnls _ _)
      · exact ih h

/-- The scan goes through the neighbours in order. -/
theorem forall₂_timeoutServers {srvs srvs' : List Server}
    (h : timeoutServers now srvs = .ok srvs') :
    List.Forall₂ (fun srvr' srvr => timeoutLoop now srvr.numChnnls.toNat 1 srvr = .ok srvr')
      srvs' srvs := by
  induction srvs generalizing srvs' with
  | nil =>
    cases h
    exact .nil
  | cons srvr srvs ih =>
    rw [timeoutServers] at h
    cases h₁ : timeoutLoop now srvr.numChnnls.toNat 1 srvr with
    | error e => rw [h₁] at h; cases h
    | ok srvr' =>
      cases h₂ : timeoutServers now srvs with
      | error e => rw [h₁] at h; simp only [h₂, bind, Except.bind] at h; cases h
      | ok rest =>
        rw [h₁] at h
        simp only [h₂, bind, Except.bind] at h
        cases h
        exact .cons h₁ (ih h₂)

theorem within_timeoutServers {srvs srvs' : List Server}
    (h : timeoutServers now srvs = .ok srvs') : List.Forall₂ Server.Within srvs' srvs :=
  (forall₂_timeoutServers h).imp fun _ _ h => within_timeoutLoop h

theorem addr_eq_of_within {srvs srvs' : List Server} (h : List.Forall₂ Server.Within srvs' srvs) :
    srvs'.map Server.addr = srvs.map Server.addr := by
  induction h with
  | nil => rfl
  | cons hw _ ih => rw [List.map_cons, List.map_cons, hw.addr, ih]

/-- A record of the second list for one of the first. -/
theorem exists_rel_of_mem {R : Server → Server → Prop} {srvs srvs' : List Server} {srvr' : Server}
    (h : List.Forall₂ R srvs' srvs) (hm : srvr' ∈ srvs') : ∃ srvr ∈ srvs, R srvr' srvr := by
  induction h with
  | nil => exact absurd hm List.not_mem_nil
  | @cons first first' rest rest' hw _ ih =>
    rcases List.mem_cons.mp hm with rfl | hm
    · exact ⟨first', List.mem_cons_self, hw⟩
    · obtain ⟨srvr, hs, hw⟩ := ih hm
      exact ⟨srvr, List.mem_cons_of_mem _ hs, hw⟩

/-- **The timeout scan** touches the neighbour tables only. -/
theorem timeoutScan_ok (h : (timeoutScan s now).result = .ok s') :
    s'.neighbours = s.neighbours ∧ s'.recentIds = s.recentIds ∧ s'.channels = s.channels ∧
      s'.allUsers = s.allUsers := by
  obtain ⟨srvs, h₁, h⟩ := Emit.bind_eq_ok_iff.mp h
  cases h
  exact ⟨addr_eq_of_within (within_timeoutServers h₁), rfl, rfl, rfl⟩

theorem timeoutScan_out (s : ServerState) (now : ℤ) : (timeoutScan s now).out = [] :=
  Emit.out_lift_bind_eq_nil fun _ => rfl

/-- One turn of the renewal loop. -/
theorem renewalLoop_cons (nbrs : List Sockaddr) (i : ℕ) (chnl : Channel) (chnls : List Channel) :
    renewalLoop nbrs now i (chnl :: chnls) =
      if now - chnl.tm > MIN_1 then
        if nbrs ≠ [] ∧ nbrs.length ≤ i then ⟨[], .error .read⟩
        else ⟨(nbrs.map fun a => ⟨a, .s2s (.join chnl.chnlName)⟩) ++
            (renewalLoop nbrs now (i + 1) chnls).out,
          (renewalLoop nbrs now (i + 1) chnls).result.map ({ chnl with tm := now } :: ·)⟩
      else ⟨(renewalLoop nbrs now (i + 1) chnls).out,
        (renewalLoop nbrs now (i + 1) chnls).result.map (chnl :: ·)⟩ := by
  rw [renewalLoop]
  by_cases h : now - chnl.tm > MIN_1
  · rw [if_pos h, if_pos h]
    by_cases h' : nbrs ≠ [] ∧ nbrs.length ≤ i
    · rw [if_pos h', if_pos h']
      rfl
    · rw [if_neg h', if_neg h']
      rcases hr : renewalLoop nbrs now (i + 1) chnls with ⟨o, e | r⟩ <;>
        simp [s2sFillJoin, Except.map]
  · rw [if_neg h, if_neg h]
    rcases hr : renewalLoop nbrs now (i + 1) chnls with ⟨o, e | r⟩ <;>
      simp [Except.map]

/-- What a channel is, but for its renewal time. -/
def Channel.membership (chnl : Channel) : Name × Table (Option User) MAX_USERS :=
  (chnl.chnlName, chnl.connectedUsers)

theorem membership_renewalLoop {nbrs : List Sockaddr} {i : ℕ} {chnls chnls' : List Channel}
    (h : (renewalLoop nbrs now i chnls).result = .ok chnls') :
    chnls'.map Channel.membership = chnls.map Channel.membership := by
  induction chnls generalizing i chnls' with
  | nil => cases h; rfl
  | cons chnl chnls ih =>
    rw [renewalLoop_cons] at h
    split at h
    · split at h
      · cases h
      · cases hr : (renewalLoop nbrs now (i + 1) chnls).result with
        | error e => simp only [hr] at h; cases h
        | ok rest =>
          simp only [hr] at h
          cases h
          rw [List.map_cons, List.map_cons, ih hr]
          rfl
    · cases hr : (renewalLoop nbrs now (i + 1) chnls).result with
      | error e => simp only [hr] at h; cases h
      | ok rest =>
        simp only [hr] at h
        cases h
        rw [List.map_cons, List.map_cons, ih hr]

/-- Without neighbours the loop reads none. -/
theorem renewalLoop_nil_ok (now : ℤ) (i : ℕ) (chnls : List Channel) :
    ∃ chnls', (renewalLoop [] now i chnls).result = .ok chnls' := by
  induction chnls generalizing i with
  | nil => exact ⟨[], rfl⟩
  | cons chnl chnls ih =>
    obtain ⟨rest, hr⟩ := ih (i + 1)
    rw [renewalLoop_cons]
    split
    · rw [if_neg fun hc => hc.1 rfl]
      exact ⟨_, by rw [hr]; rfl⟩
    · exact ⟨_, by rw [hr]; rfl⟩

/-- A renewal sends joins for the channels it looks at and nothing else. -/
theorem mem_renewalLoop_out {nbrs : List Sockaddr} {i : ℕ} {chnls : List Channel} {d : Datagram}
    (h : d ∈ (renewalLoop nbrs now i chnls).out) :
    ∃ chnl ∈ chnls, ∃ b ∈ nbrs, d = ⟨b, .s2s (.join chnl.chnlName)⟩ := by
  induction chnls generalizing i with
  | nil => exact absurd h List.not_mem_nil
  | cons chnl chnls ih =>
    have lift : d ∈ (renewalLoop nbrs now (i + 1) chnls).out →
        ∃ ch ∈ chnl :: chnls, ∃ b ∈ nbrs, d = ⟨b, .s2s (.join ch.chnlName)⟩ := fun hd => by
      obtain ⟨ch, hch, hb⟩ := ih hd
      exact ⟨ch, List.mem_cons_of_mem _ hch, hb⟩
    rw [renewalLoop_cons] at h
    split at h
    · split at h
      · exact absurd h List.not_mem_nil
      · rcases List.mem_append.mp h with h | h
        · obtain ⟨b, hb, rfl⟩ := List.mem_map.mp h
          exact ⟨chnl, List.mem_cons_self, b, hb, rfl⟩
        · exact lift h
    · exact lift h

/-- **The renewal pass** touches the renewal times only. -/
theorem renewalPass_ok (h : (renewalPass s now).result = .ok s') :
    s'.cnnctSrvrs = s.cnnctSrvrs ∧ s'.recentIds = s.recentIds ∧ s'.names = s.names ∧
      s'.allUsers = s.allUsers ∧ s'.channels.count = s.channels.count ∧
      s'.channels.live.map Channel.membership = s.channels.live.map Channel.membership := by
  rw [renewalPass] at h
  split at h
  · cases h
    exact ⟨rfl, rfl, rfl, rfl, rfl, rfl⟩
  · next chnl chnls hl =>
    obtain ⟨chnls', h₁, h⟩ := Emit.bind_eq_ok_iff.mp h
    cases h
    have hm := membership_renewalLoop h₁
    have hlen : (chnl :: chnls').length = s.channels.live.length := by
      rw [hl, List.length_cons, List.length_cons, ← List.length_map Channel.membership, hm,
        List.length_map]
    have hlive : (s.channels.overwrite (chnl :: chnls')).live.map Channel.membership =
        s.channels.live.map Channel.membership := by
      rw [Table.live_overwrite hlen, hl, List.map_cons, List.map_cons, hm]
    refine ⟨rfl, rfl, ?_, rfl, Table.count_overwrite _ _, hlive⟩
    have hn := congrArg (List.map Prod.fst) hlive
    rw [List.map_map, List.map_map] at hn
    exact hn

/-- A server without neighbours goes through the pass. -/
theorem renewalPass_alone (now : ℤ) (h : s.neighbours = []) :
    ∃ t, (renewalPass s now).result = .ok t := by
  rw [renewalPass]
  split
  · exact ⟨s, rfl⟩
  · next chnl chnls _ =>
    obtain ⟨chnls', hc⟩ := renewalLoop_nil_ok now 1 chnls
    rw [h]
    exact ⟨_, Emit.bind_eq_ok_iff.mpr ⟨chnls', hc, rfl⟩⟩

theorem mem_renewalPass_out {d : Datagram} (h : d ∈ (renewalPass s now).out) :
    ∃ c ∈ s.names, ∃ b ∈ s.neighbours, d = ⟨b, .s2s (.join c)⟩ := by
  rw [renewalPass] at h
  split at h
  · exact absurd h List.not_mem_nil
  · next chnl chnls hl =>
    have hd : d ∈ (renewalLoop s.neighbours now 1 chnls).out := by
      rcases Emit.mem_out_bind.mp h with h | ⟨_, -, h⟩
      · exact h
      · exact absurd h List.not_mem_nil
    obtain ⟨ch, hch, b, hb, rfl⟩ := mem_renewalLoop_out hd
    refine ⟨ch.chnlName, ?_, b, hb, rfl⟩
    rw [ServerState.names, chnlNames, hl]
    exact List.mem_map_of_mem (List.mem_cons_of_mem _ hch)

end Around

/-! ### All inputs at once -/

/-- The identifier of the say that an input carries, if it carries one. -/
def Input.sayId : Input → Option Id
  | .datagram _ (.client (.say _ _)) drawn _ => some drawn
  | .datagram _ (.s2s (.say m)) _ _ => some m.id
  | _ => none

/-- The identifier that an input makes the server draw. -/
def Input.drawnId : Input → Option Id
  | .datagram _ (.client (.say _ _)) drawn _ => some drawn
  | _ => none

theorem Input.sayId_of_drawnId {i : Input} {id : Id} (h : i.drawnId = some id) :
    i.sayId = some id := by
  rcases i with ⟨a, (rq | m), drawn, now⟩ | now | now
  · cases rq <;> exact h
  all_goals cases h

/-- An input that carries a say draws its identifier or brings it from a server. -/
theorem Input.cases_of_sayId {i : Input} {id : Id} (h : i.sayId = some id) :
    i.drawnId = some id ∨
      ∃ src m drawn now, i = .datagram src (.s2s (.say m)) drawn now ∧ m.id = id := by
  rcases i with ⟨a, (rq | (c | c | m)), drawn, now⟩ | now | now
  · cases rq <;> exact Or.inl h
  · cases h
  · cases h
  · exact Or.inr ⟨a, m, drawn, now, rfl, Option.some.inj h⟩
  · cases h
  · cases h

/-- The datagrams that change no table but the window of identifiers. -/
def Input.isQuiet : Input → Bool
  | .datagram _ (.client (.say _ _)) _ _ => true
  | .datagram _ (.client .list) _ _ => true
  | .datagram _ (.client (.who _)) _ _ => true
  | .datagram _ (.client (.other _)) _ _ => true
  | .datagram _ (.s2s (.say _)) _ _ => true
  | _ => false

/-- **What an input that ends well does to the state**: one case for each branch that changes a
table of its own, one for the says that are recorded, and one for what changes nothing. -/
inductive Outcome (s : ServerState) : Input → ServerState → Prop where
  | login {s' : ServerState} {a : Sockaddr} {u : Username} {drawn : Id} {now : ℤ}
      (h : (reqLogin s a u).result = .ok s') :
      Outcome s (.datagram a (.client (.login u)) drawn now) s'
  | logout {s' : ServerState} {a : Sockaddr} {drawn : Id} {now : ℤ}
      (h : (reqLogout s a).result = .ok s') :
      Outcome s (.datagram a (.client .logout) drawn now) s'
  | join {s' : ServerState} {a : Sockaddr} {c : Name} {drawn : Id} {now : ℤ}
      (h : (reqJoin s a c now).result = .ok s') :
      Outcome s (.datagram a (.client (.join c)) drawn now) s'
  | leave {s' : ServerState} {a : Sockaddr} {c : Name} {drawn : Id} {now : ℤ}
      (h : (reqLeave s a c).result = .ok s') :
      Outcome s (.datagram a (.client (.leave c)) drawn now) s'
  | servJoin {s' : ServerState} {a : Sockaddr} {c : Name} {drawn : Id} {now : ℤ}
      (h : (reqServJoin s a c now).result = .ok s') :
      Outcome s (.datagram a (.s2s (.join c)) drawn now) s'
  | servLeave {s' : ServerState} {a : Sockaddr} {c : Name} {drawn : Id} {now : ℤ}
      (h : (reqServLeave s a c).result = .ok s') :
      Outcome s (.datagram a (.s2s (.leave c)) drawn now) s'
  | timeouts {s' : ServerState} {now : ℤ} (h : (timeoutScan s now).result = .ok s') :
      Outcome s (.timeouts now) s'
  | renewal {s' : ServerState} {now : ℤ} (h : (renewalPass s now).result = .ok s') :
      Outcome s (.renewal now) s'
  | recorded {i : Input} {id : Id} {ids : RecentIds} (hq : i.isQuiet = true)
      (hid : i.sayId = some id) (h : s.recentIds.record id = .ok ids) :
      Outcome s i (s.recorded ids)
  | idle {i : Input} (hq : i.isQuiet = true)
      (h : ∀ id, i.sayId = some id → id ∈ s.recentIds.slots) : Outcome s i s

theorem outcome_of_react {s s' : ServerState} {i : Input} (h : (react s i).result = .ok s') :
    Outcome s i s' := by
  rcases i with ⟨a, (rq | m), drawn, now⟩ | now | now
  · cases rq with
    | login u => exact .login h
    | logout => exact .logout h
    | join c => exact .join h
    | leave c => exact .leave h
    | say c t =>
      have h : (reqSay s a c t drawn).result = .ok s' := h
      rcases reqSay_cases s a c t drawn with ⟨f, hf, -⟩ | ⟨_, _, ids, -, -, hids, -, hok, -⟩
      · rw [hf] at h
        cases h
      · rw [hok] at h
        cases h
        exact .recorded rfl rfl hids
    | list =>
      rw [reqList_ok h]
      exact .idle rfl fun _ hid => by cases hid
    | who c =>
      rw [reqWho_ok h]
      exact .idle rfl fun _ hid => by cases hid
    | other k =>
      cases h
      exact .idle rfl fun _ hid => by cases hid
  · cases m with
    | join c => exact .servJoin h
    | leave c => exact .servLeave h
    | say m =>
      have hr : (reqServSay s a m).result = .ok s' := h
      generalize hx : reqServSay s a m = r at hr
      cases hx ▸ reqServSay_cases s a m with
      | fault f hf => rw [hf] at hr; cases hr
      | duplicate hd =>
        cases hr
        refine .idle rfl fun id hid => ?_
        cases hid
        exact hasId_eq_ok_true.mp hd
      | prune _ hids => cases hr; exact .recorded rfl rfl hids
      | forward _ hids => cases hr; exact .recorded rfl rfl hids
  · exact .timeouts h
  · exact .renewal h

/-- **No input changes who the neighbours are.** -/
theorem neighbours_of_react {s s' : ServerState} {i : Input} (h : (react s i).result = .ok s') :
    s'.neighbours = s.neighbours := by
  have of_eq : ∀ {t : ServerState}, t.cnnctSrvrs = s.cnnctSrvrs → t.neighbours = s.neighbours :=
    fun ht => congrArg (List.map Server.addr) ht
  cases outcome_of_react h with
  | login h => exact of_eq (reqLogin_ok h).1
  | logout h => exact of_eq (reqLogout_ok h).1
  | join h => exact of_eq (reqJoin_ok h).1
  | leave h =>
    obtain ⟨_, rfl⟩ := channels_of_reqLeave h
    rfl
  | servJoin h =>
    obtain ⟨srvr, srvr', _, hs, hj, -, rfl⟩ := reqServJoin_ok h
    have hn := (addr_noteJoin hj).trans (findServerAddress_some hs).2
    exact neighbours_storeServer hn rfl
  | servLeave h => exact (reqServLeave_ok h).2.2.1
  | timeouts h => exact (timeoutScan_ok h).1
  | renewal h => exact of_eq (renewalPass_ok h).1
  | recorded => rfl
  | idle => rfl

/-- **Channels come and go one at a time**: a join appends a name that was missing, the leave of
the last user takes one occurrence away. -/
theorem names_of_react {s s' : ServerState} {i : Input} (h : (react s i).result = .ok s') :
    s'.names = s.names ∨ (∃ d, d ∉ s.names ∧ s'.names = s.names ++ [d]) ∨
      ∃ d a drawn now chnl, i = .datagram a (.client (.leave d)) drawn now ∧
        findChannel s.channels d = some chnl ∧ chnl.numUsers = 1 ∧ s'.names = s.names.erase d := by
  cases outcome_of_react h with
  | login h => exact Or.inl (names_reqLogin h)
  | logout h => exact Or.inl (reqLogout_ok h).2.2
  | @join _ a c _ now h =>
    have hn := names_reqJoin h
    split at hn
    · exact Or.inl hn
    · next hc => exact Or.inr (Or.inl ⟨c, hc, hn⟩)
  | @leave _ a c drawn now h =>
    rcases names_reqLeave h with hn | ⟨chnl, hf, h1, hn⟩
    · exact Or.inl hn
    · exact Or.inr (Or.inr ⟨c, a, drawn, now, chnl, rfl, hf, h1, hn⟩)
  | @servJoin _ a c _ now h =>
    obtain ⟨_, _, chnls, -, -, ⟨-, rfl⟩ | ⟨hc, hadd⟩, rfl⟩ := reqServJoin_ok h
    · exact Or.inl rfl
    · exact Or.inr (Or.inl ⟨c, hc, chnlNames_addChnl hadd⟩)
  | servLeave h =>
    have hc := (reqServLeave_ok h).1
    exact Or.inl (by rw [ServerState.names, hc, ServerState.names])
  | timeouts h =>
    have hc := (timeoutScan_ok h).2.2.1
    exact Or.inl (by rw [ServerState.names, hc, ServerState.names])
  | renewal h => exact Or.inl (renewalPass_ok h).2.2.1
  | recorded => exact Or.inl rfl
  | idle => exact Or.inl rfl

theorem Reachable.neighbours {addrs : List Sockaddr} {s : ServerState} (h : Reachable addrs s) :
    s.neighbours = addrs := by
  induction h with
  | start unset now => exact neighbours_start
  | step i _ hs ih => exact (neighbours_of_react hs).trans ih

/-- No name is in the table twice. -/
theorem Reachable.nodup_names {addrs : List Sockaddr} {s : ServerState} (h : Reachable addrs s) :
    s.names.Nodup := by
  induction h with
  | start unset now => exact List.nodup_singleton _
  | step i _ hs ih =>
    rcases names_of_react hs with hn | ⟨d, hd, hn⟩ | ⟨d, -, -, -, -, -, -, -, hn⟩
    · rw [hn]
      exact ih
    · rw [hn]
      exact List.nodup_append'.mpr ⟨ih, List.nodup_singleton _, by simpa using hd⟩
    · rw [hn]
      exact ih.erase d

/-- A channel that is gone was emptied by a leave. -/
theorem mem_names_of_react {s s' : ServerState} {i : Input} {c : Name}
    (h : (react s i).result = .ok s') (hc : c ∈ s.names) :
    c ∈ s'.names ∨ ∃ a drawn now chnl, i = .datagram a (.client (.leave c)) drawn now ∧
      findChannel s.channels c = some chnl ∧ chnl.numUsers = 1 := by
  rcases names_of_react h with hn | ⟨d, -, hn⟩ | ⟨d, a, drawn, now, chnl, hi, hf, h1, hn⟩
  · exact Or.inl (by rw [hn]; exact hc)
  · exact Or.inl (by rw [hn]; exact List.mem_append_left _ hc)
  · by_cases hcd : c = d
    · subst hcd
      exact Or.inr ⟨a, drawn, now, chnl, hi, hf, h1⟩
    · exact Or.inl (by rw [hn]; exact (List.mem_erase_of_ne hcd).mpr hc)

/-- **Identifiers are recorded by says**, and a say that is not recorded was there already. -/
theorem recentIds_of_react {s s' : ServerState} {i : Input} (h : (react s i).result = .ok s') :
    (s'.recentIds = s.recentIds ∧ ∀ id, i.sayId = some id → id ∈ s.recentIds.slots) ∨
      ∃ id, i.sayId = some id ∧ s.recentIds.record id = .ok s'.recentIds := by
  cases outcome_of_react h with
  | login h => exact Or.inl ⟨(reqLogin_ok h).2.1, fun _ hid => by cases hid⟩
  | logout h => exact Or.inl ⟨(reqLogout_ok h).2.1, fun _ hid => by cases hid⟩
  | join h => exact Or.inl ⟨(reqJoin_ok h).2.1, fun _ hid => by cases hid⟩
  | leave h =>
    obtain ⟨_, rfl⟩ := channels_of_reqLeave h
    exact Or.inl ⟨rfl, fun _ hid => by cases hid⟩
  | servJoin h =>
    obtain ⟨_, _, _, -, -, -, rfl⟩ := reqServJoin_ok h
    exact Or.inl ⟨rfl, fun _ hid => by cases hid⟩
  | servLeave h => exact Or.inl ⟨(reqServLeave_ok h).2.1, fun _ hid => by cases hid⟩
  | timeouts h => exact Or.inl ⟨(timeoutScan_ok h).2.1, fun _ hid => by cases hid⟩
  | renewal h => exact Or.inl ⟨(renewalPass_ok h).2.1, fun _ hid => by cases hid⟩
  | recorded _ hid hids => exact Or.inr ⟨_, hid, hids⟩
  | idle _ hall => exact Or.inl ⟨rfl, hall⟩

/-- What a server has seen it goes on having seen. -/
theorem seen_of_react {s s' : ServerState} {i : Input} {id : Id}
    (h : (react s i).result = .ok s') (hid : s.recentIds.Seen id) : s'.recentIds.Seen id := by
  rcases recentIds_of_react h with ⟨he, -⟩ | ⟨id', -, hr⟩
  · rw [he]
    exact hid
  · exact RecentIds.seen_of_record hr (Or.inl hid)

/-- A say that ends well has been seen. -/
theorem seen_of_sayId {s s' : ServerState} {i : Input} {id : Id}
    (h : (react s i).result = .ok s') (hid : i.sayId = some id) : s'.recentIds.Seen id := by
  rcases recentIds_of_react h with ⟨he, hall⟩ | ⟨id', hid', hr⟩
  · rw [he]
    exact Or.inl (hall id hid)
  · cases hid.symm.trans hid'
    exact RecentIds.seen_of_record hr (Or.inr rfl)

/-- The says that the say of a client sends. -/
theorem mem_say_out_reqSay {s : ServerState} {a b : Sockaddr} {c : Name} {t : SayText} {drawn : Id}
    {m : SayS2S} (h : (⟨b, .s2s (.say m)⟩ : Datagram) ∈ (reqSay s a c t drawn).out) :
    (∃ srvr ∈ s.cnnctSrvrs, srvr.addr = b ∧ m.reqChannel ∈ srvr.subs) ∧ m.reqChannel = c ∧
      m.id = drawn := by
  rcases reqSay_cases s a c t drawn with ⟨f, -, ho⟩ | ⟨chnl, _, _, -, -, -, -, -, ho⟩
  · have hp : (⟨b, b, .say m⟩ : Packet) ∈ packets b (reqSay s a c t drawn).out :=
      List.mem_filterMap.mpr ⟨_, h, rfl⟩
    rw [ho] at hp
    cases hp
  · rw [ho] at h
    rcases List.mem_append.mp h with h | h
    · obtain ⟨x, hx⟩ := sayLoop_out_text h
      cases hx
    · obtain ⟨srvr, hs, hd⟩ := List.mem_map.mp h
      obtain ⟨hs, hc⟩ := List.mem_filter.mp hs
      cases hd
      exact ⟨⟨srvr, hs, rfl, isSome_findChannelServer_iff.mp hc⟩, rfl, rfl⟩

/-- The says that the say of a server sends: copies, and none back. -/
theorem mem_say_out_reqServSay {s : ServerState} {a b : Sockaddr} {m m' : SayS2S}
    (h : (⟨b, .s2s (.say m)⟩ : Datagram) ∈ (reqServSay s a m').out) :
    (∃ srvr ∈ s.cnnctSrvrs, srvr.addr = b ∧ m.reqChannel ∈ srvr.subs) ∧ m = m' ∧ b ≠ a ∧
      hasId s.recentIds m.id = .ok false := by
  have hcases := reqServSay_cases s a m'
  generalize reqServSay s a m' = r at h hcases
  cases hcases with
  | fault f hf ho => cases ho _ h
  | duplicate => cases List.mem_singleton.mp h
  | prune => cases List.mem_singleton.mp h
  | forward hid =>
    rcases List.mem_append.mp h with h | h
    · cases deliverLoop_out_text h
    · obtain ⟨srvr, hs, hd⟩ := List.mem_map.mp h
      obtain ⟨hm, hk⟩ := List.mem_filter.mp hs
      obtain ⟨hc, hne⟩ := Bool.and_eq_true_iff.mp hk
      cases hd
      refine ⟨⟨srvr, hm, rfl, isSome_findChannelServer_iff.mp hc⟩, rfl, fun he => ?_, hid⟩
      rw [addrCmp_iff.mpr he] at hne
      cases hne

/-- **Says are sent by says only**: by the say of a client, or by a say that was not seen before, to
neighbours that list the channel and did not send it. -/
theorem mem_say_out {s : ServerState} {i : Input} {b : Sockaddr} {m : SayS2S}
    (h : (⟨b, .s2s (.say m)⟩ : Datagram) ∈ (react s i).out) :
    (∃ srvr ∈ s.cnnctSrvrs, srvr.addr = b ∧ m.reqChannel ∈ srvr.subs) ∧
      ((∃ a t now, i = .datagram a (.client (.say m.reqChannel t)) m.id now) ∨
        ∃ a drawn now, i = .datagram a (.s2s (.say m)) drawn now ∧ b ≠ a ∧
          hasId s.recentIds m.id = .ok false) := by
  have hp : (⟨b, b, .say m⟩ : Packet) ∈ packets b (react s i).out :=
    List.mem_filterMap.mpr ⟨_, h, rfl⟩
  rcases i with ⟨a, (rq | m'), drawn, now⟩ | now | now
  · cases rq with
    | login u =>
      change _ ∈ (reqLogin s a u).out at h
      rw [reqLogin_out] at h
      cases h
    | logout =>
      change _ ∈ (reqLogout s a).out at h
      rw [reqLogout_out] at h
      cases h
    | join c =>
      change _ ∈ (reqJoin s a c now).out at h
      rw [reqJoin_out] at h
      obtain ⟨_, -, hd⟩ := List.mem_map.mp h
      cases hd
    | leave c =>
      obtain ⟨_, -, hd⟩ := mem_packets_reqLeave (s := s) (a := a) (c := c) hp
      cases hd
    | say c t =>
      obtain ⟨hlist, rfl, rfl⟩ := mem_say_out_reqSay h
      exact ⟨hlist, Or.inl ⟨a, t, now, rfl⟩⟩
    | list => cases hp
    | who c =>
      change _ ∈ packets b (reqWho s a c).out at hp
      rw [packets_reqWho_out] at hp
      cases hp
    | other k => cases h
  · cases m' with
    | join c =>
      change _ ∈ (reqServJoin s a c now).out at h
      rcases reqServJoin_cases s a c now with ⟨f, -, ho⟩ | ⟨_, _, _, -, -, -, hk⟩
      · rw [ho] at h
        cases h
      · rcases hk with ⟨-, -, ho⟩ | ⟨-, _, -, -, ho⟩ <;> rw [ho] at h
        · cases h
        · obtain ⟨_, -, hd⟩ := List.mem_map.mp h
          cases hd
    | leave c =>
      change _ ∈ (reqServLeave s a c).out at h
      rw [(reqServLeave_cases s a c).1] at h
      cases h
    | say m' =>
      obtain ⟨hlist, rfl, hne, hid⟩ := mem_say_out_reqServSay h
      exact ⟨hlist, Or.inr ⟨a, drawn, now, rfl, hne, hid⟩⟩
  · change _ ∈ (timeoutScan s now).out at h
    rw [timeoutScan_out] at h
    cases h
  · obtain ⟨c, -, b', -, hd⟩ := mem_renewalPass_out h
    cases hd

/-- A packet of a say has the identifier that the step came with. -/
theorem sayId_of_mem_out {s : ServerState} {i : Input} {b : Sockaddr} {m : SayS2S}
    (h : (⟨b, .s2s (.say m)⟩ : Datagram) ∈ (react s i).out) : i.sayId = some m.id := by
  rcases (mem_say_out h).2 with ⟨a, t, now, rfl⟩ | ⟨a, drawn, now, rfl, -⟩
  · rfl
  · rfl

end DuckChat
