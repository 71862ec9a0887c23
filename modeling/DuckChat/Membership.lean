import DuckChat.Client
import DuckChat.Roster

/-!
# The clients' and the server's view of membership

One server without neighbours and any number of clients that join, leave and switch channels. What
a client has asked for waits in a queue of its own. The client has counted its requests already, the
server has not: replaying what is in the queue on the server's entries of the client's user gives
the client's list. A leave is sent only for a channel in that list, so the server never looks for a
user in vain.

## Main definitions

* `Chat`, `Chat.step` — the server, the clients, and the queues between them
* `entryCount`, `settle` — the server's count, and the effect of one request on it
* `Tidy`, `Follows` — the invariant

## Main results

* `Tidy.login`, `Tidy.join`, `Tidy.leave` — a request changes the counts as `settle` says
* `membership_agrees`
-/

set_option autoImplicit false

namespace DuckChat

/-! ### The server and its clients -/

/-- The server, the clients, and what the clients have sent. -/
structure Chat (κ : Type) where
  server : Node
  client : κ → Except Fault Client
  wire : κ → List ClientRequest

/-- What can happen: a client reads a line, the server takes the next request of a client, or does
one of its rounds. -/
inductive ChatAction (κ : Type) where
  | line (k : κ) (buff : Line)
  | receive (k : κ) (drawn : Id) (now : ℤ)
  | timeouts (now : ℤ)
  | renewal (now : ℤ)

namespace Chat

variable {κ : Type}

/-- All clients have started. -/
def start (name : κ → Username) (now : ℤ) : Chat κ where
  server := .running (ServerState.start [] 0 now)
  client _ := .ok Client.start
  wire k := firstRequests (name k)

/-- One input at the server. -/
def serve (s : Chat κ) (inp : Input) : Chat κ :=
  match s.server with
  | .faulted _ => s
  | .running st => { s with server := Node.ofResult (react st inp).result }

/-- One action. -/
def step [DecidableEq κ] (addr : κ → Sockaddr) (s : Chat κ) : ChatAction κ → Option (Chat κ)
  | .line k buff =>
      match s.client k with
      | .error _ => none
      | .ok c => some { s with
          client := Function.update s.client k (c.turn buff).result
          wire := Function.update s.wire k (s.wire k ++ c.asks buff) }
  | .receive k drawn now =>
      match s.wire k with
      | [] => none
      | rq :: rqs => some (serve { s with wire := Function.update s.wire k rqs }
          (.datagram (addr k) (.client rq) drawn now))
  | .timeouts now => some (s.serve (.timeouts now))
  | .renewal now => some (s.serve (.renewal now))

/-- Lines that join, leave or switch, and logins that find a channel in the table. -/
def usual (s : Chat κ) : ChatAction κ → Bool
  | .line _ buff => buff.isUsual
  | .receive k _ _ =>
      match s.wire k, s.server with
      | .login _ :: _, .running st => st.channels.live ≠ []
      | _, _ => true
  | _ => true

/-- A table, or a client's list, has grown beyond its size. -/
def Overrun (s : Chat κ) : Prop :=
  (∃ f, s.server = .faulted f ∧ f.Overrun) ∨ ∃ k f, s.client k = .error f ∧ f.Overrun

end Chat

/-- The number of entries in a channel of users with an address. -/
def ServerState.entryCount (s : ServerState) (a : Sockaddr) (c : Name) : ℕ :=
  (s.usersOf c).countP (hasUser fun u => addrCmp u.address a)

/-- What a request of a user will do to the numbers of its entries. A leave must find an entry. -/
def settle (counts : Name → ℕ) : ClientRequest → Option (Name → ℕ)
  | .join c => some (Function.update counts c (counts c + 1))
  | .leave c => if counts c = 0 then none else some (Function.update counts c (counts c - 1))
  | _ => some counts

/-- A join or a leave. -/
def ClientRequest.isMembership : ClientRequest → Bool
  | .join _ => true
  | .leave _ => true
  | _ => false

/-! ### One server -/

section OneServer

variable {s s' : ServerState} {a : Sockaddr} {c : Name} {now : ℤ}

/-- A leave of a member takes out its first entry under its name. -/
theorem reqLeave_member {usr : User} (hs : Sound s) (hnd : s.names.Nodup)
    (hu : findUser s.allUsers a = some usr)
    (hmem : ∃ e ∈ s.usersOf c, hasUser (fun u => u.username == usr.username) e = true) :
    ∃ s', (reqLeave s a c).result = .ok s' ∧ Sound s' ∧ s'.allUsers = s.allUsers ∧
      ∀ d, s'.usersOf d = if d = c then
        (s.usersOf c).eraseP (hasUser fun u => u.username == usr.username) else s.usersOf d := by
  cases hf : findChannel s.channels c with
  | none =>
    obtain ⟨e, he, -⟩ := hmem
    rw [ServerState.usersOf, hf] at he
    cases he
  | some chnl =>
    have husers : s.usersOf c = chnl.entries := by rw [ServerState.usersOf, hf]
    rw [husers] at hmem ⊢
    obtain ⟨e, he, hp⟩ := hmem
    have hany : chnl.entries.any (isNamed usr.username) = true := List.any_eq_true.mpr ⟨e, he, hp⟩
    have hok := (reqLeave_user_eq_ok_iff hf hu).mpr
      ⟨legible_of_readable (hs.users chnl (findChannel_some hf).1).2, rfl⟩
    refine ⟨_, hok, hs.afterLeave hf (List.ne_nil_of_mem he), rfl, fun d => ?_⟩
    rw [usersOf_afterLeave hnd hf, without, if_pos hany]

/-- Erasing the first hit of one test takes at most one from the count of another. -/
theorem countP_eraseP {α : Type} {p q : α → Bool} {xs : List α} {x : α} (hx : x ∈ xs)
    (hp : p x = true) : ∃ y ∈ xs, p y = true ∧
      xs.countP q = (xs.eraseP p).countP q + if q y = true then 1 else 0 := by
  obtain ⟨y, l₁, l₂, -, hy, hl, he⟩ := List.exists_of_eraseP hx hp
  refine ⟨y, by rw [hl]; exact List.mem_append_right _ List.mem_cons_self, hy, ?_⟩
  rw [he, hl, List.countP_append, List.countP_append, List.countP_cons, Nat.add_assoc]

end OneServer

/-! ### The users of a server -/

variable {κ : Type}

/-- A reachable state of the server whose users are clients of ours. -/
structure Tidy (addr : κ → Sockaddr) (name : κ → Username) (st : ServerState) : Prop where
  reachable : Reachable [] st
  sound : Sound st
  users : ∀ u ∈ st.heap, ∃ k, u.username = name k ∧ u.address = addr k

/-- The request of client `k` was taken: its counts have changed as the request says, nobody
else's have, and the same users are logged in. -/
structure Taken (addr : κ → Sockaddr) (name : κ → Username) (st st' : ServerState) (k : κ)
    (rq : ClientRequest) : Prop where
  tidy : Tidy addr name st'
  users : st'.allUsers = st.allUsers
  settles : settle (st.entryCount (addr k)) rq = some (st'.entryCount (addr k))
  others : ∀ j, j ≠ k → st'.entryCount (addr j) = st.entryCount (addr j)

section Users

variable {addr : κ → Sockaddr} {name : κ → Username} {st st' : ServerState} {k : κ} {c : Name}
  {now : ℤ} {drawn : Id}

/-- An entry belongs to a client, and it can be told by the name as well as by the address. -/
theorem Tidy.entry (h : Tidy addr name st) {e : Option User} (he : e ∈ st.usersOf c) :
    ∃ u j, e = some u ∧ u ∈ st.heap ∧ u.username = name j ∧ u.address = addr j := by
  rw [ServerState.usersOf] at he
  split at he
  · next chnl hf =>
    obtain ⟨u, hu, rfl⟩ := (h.sound.users chnl (findChannel_some hf).1).2 e he
    obtain ⟨j, hn, ha⟩ := h.users u hu
    exact ⟨u, j, rfl, hu, hn, ha⟩
  · exact absurd he List.not_mem_nil

/-- **A login** of a client that is not known yet changes no channel. -/
theorem Tidy.login (h : Tidy addr name st) (hname : Function.Injective name)
    (hk : findUser st.allUsers (addr k) = none)
    (hr : (react st (.datagram (addr k) (.client (.login (name k))) drawn now)).result = .ok st') :
    Tidy addr name st' ∧ st'.usersOf = st.usersOf ∧
      ∀ a, (findUser st'.allUsers a).isSome ↔ (findUser st.allUsers a).isSome ∨ a = addr k := by
  have hr' : (reqLogin st (addr k) (name k)).result = .ok st' := hr
  obtain ⟨-, -, -, hst, -⟩ := reqLogin_ok hr'
  obtain ⟨-, -, hlive, -⟩ := store_eq_ok_iff.mp hst
  have hnew : ∀ chnl ∈ st.channels.live, ∀ e ∈ chnl.entries,
      hasUser (fun v => v.username == name k) e = false := by
    intro chnl hch e he
    obtain ⟨v, hv, rfl⟩ := (h.sound.users chnl hch).2 e he
    obtain ⟨j, hn, ha⟩ := h.users v hv
    rw [← Bool.not_eq_true, hasUser, beq_iff_eq, hn]
    intro hjk
    rw [hname hjk] at ha
    have hnone := List.find?_eq_none.mp hk v hv
    exact hnone (addrCmp_iff.mpr ha)
  refine ⟨⟨h.reachable.step _ hr, h.sound.reqLogin.result_ok hr', fun u hu => ?_⟩,
    usersOf_reqLogin hr' hnew, fun a => ?_⟩
  · rw [ServerState.heap, hlive] at hu
    rcases List.mem_append.mp hu with hu | hu
    · exact h.users u hu
    · rw [List.mem_singleton.mp hu]
      exact ⟨k, rfl, rfl⟩
  · rw [findUser, findUser, List.find?_isSome, List.find?_isSome, hlive]
    constructor
    · rintro ⟨u, hu, ha⟩
      rcases List.mem_append.mp hu with hu | hu
      · exact Or.inl ⟨u, hu, ha⟩
      · rw [List.mem_singleton.mp hu] at ha
        exact Or.inr (addrCmp_iff.mp ha).symm
    · rintro (⟨u, hu, ha⟩ | rfl)
      · exact ⟨u, List.mem_append_left _ hu, ha⟩
      · exact ⟨_, List.mem_append_right _ (List.mem_singleton_self _), addrCmp_iff.mpr rfl⟩

/-! Nor do the rounds of the server. -/

theorem Tidy.timeouts (h : Tidy addr name st) :
    ∃ st', (react st (.timeouts now)).result = .ok st' ∧ Tidy addr name st' ∧
      st'.allUsers = st.allUsers ∧ st'.usersOf = st.usersOf := by
  have hsrv : st.cnnctSrvrs = [] := List.map_eq_nil_iff.mp h.reachable.neighbours
  have hr : (react st (.timeouts now)).result = .ok { st with cnnctSrvrs := [] } := by
    show (timeoutScan st now).result = _
    rw [timeoutScan, hsrv]
    rfl
  refine ⟨_, hr, ⟨h.reachable.step _ hr, ?_, h.users⟩, rfl, rfl⟩
  exact ⟨h.sound.channels, h.sound.allUsers, fun srvr hs => absurd hs List.not_mem_nil,
    h.sound.users⟩

theorem Tidy.renewal (h : Tidy addr name st) :
    ∃ st', (react st (.renewal now)).result = .ok st' ∧ Tidy addr name st' ∧
      st'.allUsers = st.allUsers ∧ st'.usersOf = st.usersOf := by
  obtain ⟨st', hr⟩ := renewalPass_alone now h.reachable.neighbours
  obtain ⟨hsrv, -, -, husers, hcount, hmem⟩ := renewalPass_ok hr
  have hof : st'.usersOf = st.usersOf := by
    refine usersOf_congr ?_
    have hview := congrArg (List.map fun x => (x.1, x.2.live)) hmem
    rw [List.map_map, List.map_map] at hview
    exact hview
  refine ⟨st', hr, ⟨h.reachable.step (.renewal now) hr, ⟨?_, ?_, ?_, ?_⟩, ?_⟩, husers, hof⟩
  · rw [hcount]
    exact h.sound.channels
  · rw [husers]
    exact h.sound.allUsers
  · rw [hsrv]
    exact h.sound.tables
  · intro ch hch
    obtain ⟨old, hold, heq⟩ := List.mem_map.mp (hmem ▸ List.mem_map_of_mem hch)
    have htable : ch.connectedUsers = old.connectedUsers := (congrArg Prod.snd heq).symm
    obtain ⟨h0, hread⟩ := h.sound.users old hold
    rw [ServerState.heap, husers]
    refine ⟨?_, fun e he => hread e ?_⟩
    · rw [Channel.numUsers, htable]
      exact h0
    · rw [Channel.entries, htable] at he
      exact he
  · rw [ServerState.heap, husers]
    exact h.users

variable [DecidableEq κ]

/-- **A join.** -/
theorem Tidy.join (h : Tidy addr name st) (haddr : Function.Injective addr)
    (hk : (findUser st.allUsers (addr k)).isSome)
    (hr : (react st (.datagram (addr k) (.client (.join c)) drawn now)).result = .ok st') :
    Taken addr name st st' k (.join c) := by
  have hr' : (reqJoin st (addr k) c now).result = .ok st' := hr
  obtain ⟨u, hu⟩ := Option.isSome_iff_exists.mp hk
  have hua : u.address = addr k := (mem_heap_of_findUser hu).2
  have husers : st'.allUsers = st.allUsers := (reqJoin_ok hr').2.2.1
  have hcount : ∀ j d, st'.entryCount (addr j) d =
      st.entryCount (addr j) d + if d = c ∧ j = k then 1 else 0 := by
    intro j d
    rw [ServerState.entryCount, usersOf_reqJoin hr', ServerState.entryCount]
    have htest : hasUser (fun v => addrCmp v.address (addr j)) (some u) = true ↔ j = k := by
      rw [hasUser, addrCmp_iff, hua]
      exact ⟨fun he => (haddr he).symm, fun he => by rw [he]⟩
    by_cases hd : d = c
    · rw [if_pos hd, hd, hu, List.countP_append, List.countP_singleton]
      simp [htest]
    · simp [hd]
  refine ⟨⟨h.reachable.step _ hr, (h.sound.reqJoin hk).result_ok hr', ?_⟩, husers, ?_, ?_⟩
  · rw [ServerState.heap, husers]
    exact h.users
  · rw [settle]
    refine congrArg some ?_
    funext d
    rw [hcount]
    by_cases hd : d = c
    · rw [hd, Function.update_self, if_pos ⟨rfl, rfl⟩]
    · rw [Function.update_of_ne hd, if_neg fun hc => hd hc.1]
      rfl
  · intro j hj
    funext d
    rw [hcount, if_neg fun hc => hj hc.2]
    rfl

/-- **A leave** of a client that has an entry. -/
theorem Tidy.leave (drawn : Id) (now : ℤ) (h : Tidy addr name st) (haddr : Function.Injective addr)
    (hname : Function.Injective name) (hk : (findUser st.allUsers (addr k)).isSome)
    (hc : st.entryCount (addr k) c ≠ 0) :
    ∃ st', (react st (.datagram (addr k) (.client (.leave c)) drawn now)).result = .ok st' ∧
      Taken addr name st st' k (.leave c) := by
  obtain ⟨u, hu⟩ := Option.isSome_iff_exists.mp hk
  obtain ⟨huh, hua⟩ := mem_heap_of_findUser hu
  have hun : u.username = name k := by
    obtain ⟨j, hj, ha⟩ := h.users u huh
    rw [hj, haddr (ha.symm.trans hua)]
  -- entries with the name of the user are those with its address
  have htest : ∀ e ∈ st.usersOf c, hasUser (fun v => v.username == u.username) e = true ↔
      hasUser (fun v => addrCmp v.address (addr k)) e = true := by
    intro e he
    obtain ⟨v, j, rfl, -, hvn, hva⟩ := h.entry he
    rw [hasUser, hasUser, beq_iff_eq, addrCmp_iff, hun, hvn, hva]
    exact ⟨fun he => by rw [hname he], fun he => by rw [haddr he]⟩
  obtain ⟨e, he, hp⟩ := List.countP_pos_iff.mp (Nat.pos_of_ne_zero hc)
  obtain ⟨st', hr, hsound, husers, hof⟩ := reqLeave_member h.sound h.reachable.nodup_names hu
    ⟨e, he, (htest e he).mpr hp⟩
  have hcount : ∀ j, st.entryCount (addr j) c =
      st'.entryCount (addr j) c + if j = k then 1 else 0 := by
    intro j
    obtain ⟨y, hy, hpy, heq⟩ := countP_eraseP (q := hasUser fun v => addrCmp v.address (addr j)) he
      ((htest e he).mpr hp)
    have hky := (htest y hy).mp hpy
    rw [ServerState.entryCount, heq, ServerState.entryCount, hof, if_pos rfl]
    congr 2
    obtain ⟨v, i, rfl, -, -, -⟩ := h.entry hy
    rw [hasUser, addrCmp_iff] at hky
    rw [hasUser, addrCmp_iff, hky, eq_iff_iff]
    exact ⟨fun he => (haddr he).symm, fun he => by rw [he]⟩
  have hother : ∀ j d, d ≠ c → st'.entryCount (addr j) d = st.entryCount (addr j) d := by
    intro j d hd
    rw [ServerState.entryCount, hof, if_neg hd, ServerState.entryCount]
  refine ⟨st', hr, ⟨h.reachable.step (.datagram (addr k) (.client (.leave c)) drawn now) hr,
    hsound, ?_⟩, husers, ?_, ?_⟩
  · rw [ServerState.heap, husers]
    exact h.users
  · rw [settle, if_neg hc]
    refine congrArg some ?_
    funext d
    by_cases hd : d = c
    · rw [hd, Function.update_self, hcount, if_pos rfl, Nat.add_sub_cancel]
    · rw [Function.update_of_ne hd, hother k d hd]
  · intro j hj
    funext d
    by_cases hd : d = c
    · rw [hd, hcount j, if_neg hj, Nat.add_zero]
    · exact hother j d hd

end Users

/-! ### The clients -/

/-- The server and client `k`, with `wire` between them: the client is logged in, or will be by the
first request; the others are joins and leaves; and they will make the counts agree. -/
structure Follows (addr : κ → Sockaddr) (name : κ → Username) (st : ServerState) (k : κ)
    (c : Client) (wire : List ClientRequest) : Prop where
  logout : c.logout = false
  joined : 0 ≤ c.joinedChnls.count
  session : ((findUser st.allUsers (addr k)).isSome ∧ ∀ rq ∈ wire, rq.isMembership) ∨
    (findUser st.allUsers (addr k) = none ∧
      ∃ rqs, wire = .login (name k) :: rqs ∧ ∀ rq ∈ rqs, rq.isMembership)
  replay : wire.foldlM settle (st.entryCount (addr k)) =
    some fun d => c.joinedChnls.live.count d

section Clients

variable {addr : κ → Sockaddr} {name : κ → Username} {st st' : ServerState} {k : κ} {c : Client}
  {wire : List ClientRequest} {buff : Line}

theorem follows_start (now : ℤ) (k : κ) :
    Follows addr name (ServerState.start [] 0 now) k Client.start (firstRequests (name k)) where
  logout := rfl
  joined := Int.zero_le_ofNat 1
  session := Or.inr ⟨rfl, _, rfl, fun rq hrq => by rw [List.mem_singleton.mp hrq]; rfl⟩
  replay := by
    have hzero : ∀ d, (ServerState.start [] 0 now).entryCount (addr k) d = 0 := by
      intro d
      rw [ServerState.entryCount, ServerState.usersOf]
      split
      · next chnl hf =>
        rw [List.mem_singleton.mp (findChannel_some hf).1]
        rfl
      · rfl
    show (settle _ (.login (name k))).bind (fun f => (settle f (.join common)).bind some) = _
    simp only [settle, Option.bind_some]
    refine congrArg some ?_
    funext d
    show _ = [common].count d
    by_cases hd : d = common
    · rw [hd, Function.update_self, hzero]
      rfl
    · rw [Function.update_of_ne hd, hzero, List.count_eq_zero.mpr]
      rw [List.mem_singleton]
      exact hd

/-- Changes of the server that are not about the client. -/
theorem Follows.congr (h : Follows addr name st k c wire)
    (hlog : (findUser st'.allUsers (addr k)).isSome ↔ (findUser st.allUsers (addr k)).isSome)
    (hcount : st'.entryCount (addr k) = st.entryCount (addr k)) :
    Follows addr name st' k c wire where
  logout := h.logout
  joined := h.joined
  session := h.session.imp (fun hs => ⟨hlog.mpr hs.1, hs.2⟩) fun hs => by
    refine ⟨?_, hs.2⟩
    rw [← Option.not_isSome_iff_eq_none, hlog, Option.not_isSome_iff_eq_none]
    exact hs.1
  replay := by
    rw [hcount]
    exact h.replay

/-- **A line.** What is sent for it settles what it has changed in the list. -/
theorem Follows.line (h : Follows addr name st k c wire) (hu : buff.isUsual) :
    (∃ f, (c.turn buff).result = .error f ∧ f.Overrun) ∨
      ∃ c', (c.turn buff).result = .ok c' ∧
        Follows addr name st k c' (wire ++ c.asks buff) := by
  rcases Client.asks_cases h.logout h.joined hu with ho | ⟨c', hr, hlog, hjoin, hk⟩
  · exact Or.inl ho
  refine Or.inr ⟨c', hr, hlog, hjoin, ?_, ?_⟩
  · have hout : ∀ rq ∈ c.asks buff, rq.isMembership := by
      intro rq hrq
      rcases hk with ⟨d, ho, -⟩ | ⟨d, -, ho, -⟩ | ⟨ho, -⟩
      · rw [ho] at hrq
        rw [List.mem_singleton.mp hrq]
        rfl
      · rw [ho] at hrq
        rw [List.mem_singleton.mp hrq]
        rfl
      · rw [ho] at hrq
        cases hrq
    rcases h.session with ⟨hs, hw⟩ | ⟨hs, rqs, rfl, hw⟩
    · refine Or.inl ⟨hs, fun rq hrq => ?_⟩
      exact (List.mem_append.mp hrq).elim (hw rq) (hout rq)
    · refine Or.inr ⟨hs, rqs ++ c.asks buff, rfl, fun rq hrq => ?_⟩
      exact (List.mem_append.mp hrq).elim (hw rq) (hout rq)
  · rw [List.foldlM_append, h.replay]
    rcases hk with ⟨d, ho, hl⟩ | ⟨d, hd, ho, hl⟩ | ⟨ho, hl⟩
    · rw [ho, hl]
      show some _ = some _
      refine congrArg some ?_
      funext x
      rw [List.count_append, List.count_singleton]
      by_cases hx : x = d
      · rw [hx, Function.update_self]
        simp
      · rw [Function.update_of_ne hx]
        simp [Ne.symm hx]
    · rw [ho, hl]
      have hpos : c.joinedChnls.live.count d ≠ 0 := fun h0 => List.count_eq_zero.mp h0 hd
      show (settle _ (.leave d)).bind some = some _
      rw [settle, if_neg hpos]
      refine congrArg some ?_
      funext x
      by_cases hx : x = d
      · rw [hx, Function.update_self, List.count_erase_self]
      · rw [Function.update_of_ne hx, List.count_erase_of_ne hx]
    · rw [ho, hl]
      rfl

end Clients

/-! ### Runs -/

/-- The server has not faulted, and every client is followed. -/
def ChatInv (addr : κ → Sockaddr) (name : κ → Username) (s : Chat κ) : Prop :=
  ∃ st, s.server = .running st ∧ Tidy addr name st ∧
    ∀ k, ∃ c, s.client k = .ok c ∧ Follows addr name st k c (s.wire k)

section Runs

variable {addr : κ → Sockaddr} {name : κ → Username} {s s' : Chat κ} {st : ServerState} {k : κ}
  {now : ℤ} {drawn : Id} {inp : Input}

theorem Chat.serve_of_running (h : s.server = .running st) :
    s.serve inp = { s with server := Node.ofResult (react st inp).result } := by
  rw [serve, h]

theorem chatInv_start (addr : κ → Sockaddr) (name : κ → Username) (now : ℤ) :
    ChatInv addr name (Chat.start name now) :=
  ⟨_, rfl, ⟨.start 0 now, Sound.start _ _ _, fun _ hu => absurd hu List.not_mem_nil⟩,
    fun k => ⟨_, rfl, follows_start now k⟩⟩

/-- A round of the server. -/
theorem ChatInv.round (h : ChatInv addr name s)
    (hr : ∀ st, Tidy addr name st → ∃ st', (react st inp).result = .ok st' ∧ Tidy addr name st' ∧
      st'.allUsers = st.allUsers ∧ st'.usersOf = st.usersOf) :
    ChatInv addr name (s.serve inp) := by
  obtain ⟨st, hst, htidy, hc⟩ := h
  obtain ⟨st', hr, htidy', husers, hof⟩ := hr st htidy
  rw [Chat.serve_of_running hst, hr]
  refine ⟨st', rfl, htidy', fun k => ?_⟩
  obtain ⟨c, hk, hf⟩ := hc k
  refine ⟨c, hk, hf.congr (by rw [husers]) ?_⟩
  funext d
  rw [ServerState.entryCount, hof, ServerState.entryCount]

variable [DecidableEq κ]

theorem Chat.Overrun.of_step {a : ChatAction κ} (h : s.Overrun)
    (hst : Chat.step addr s a = some s') : s'.Overrun := by
  have hserve : ∀ (t : Chat κ), t.server = s.server → t.client = s.client → ∀ inp,
      (t.serve inp).Overrun := by
    intro t hserver hclient inp
    rcases h with ⟨f, hf, ho⟩ | ⟨k, f, hf, ho⟩
    · rw [Chat.serve, hserver, hf]
      exact Or.inl ⟨f, hserver.trans hf, ho⟩
    · refine Or.inr ⟨k, f, ?_, ho⟩
      rw [Chat.serve]
      split
      · rw [hclient, hf]
      · show t.client k = _
        rw [hclient, hf]
  cases a with
  | line k buff =>
    simp only [Chat.step] at hst
    split at hst
    · cases hst
    · next c hc =>
      cases hst
      rcases h with hf | ⟨j, f, hf, ho⟩
      · exact Or.inl hf
      · refine Or.inr ⟨j, f, ?_, ho⟩
        have hj : j ≠ k := by
          rintro rfl
          rw [hc] at hf
          cases hf
        show Function.update _ _ _ j = _
        rw [Function.update_of_ne hj, hf]
  | receive k drawn now =>
    simp only [Chat.step] at hst
    split at hst
    · cases hst
    · cases hst
      refine hserve _ ?_ ?_ _
      · rfl
      · rfl
  | timeouts now =>
    cases hst
    exact hserve s rfl rfl _
  | renewal now =>
    cases hst
    exact hserve s rfl rfl _

/-- A line of a client. -/
theorem ChatInv.line {c : Client} {buff : Line} (h : ChatInv addr name s) (hc : s.client k = .ok c)
    (hu : buff.isUsual) {t : Chat κ} (hserver : t.server = s.server)
    (hclient : t.client = Function.update s.client k (c.turn buff).result)
    (hwire : t.wire = Function.update s.wire k (s.wire k ++ c.asks buff)) :
    t.Overrun ∨ ChatInv addr name t := by
  obtain ⟨st, hst, htidy, hall⟩ := h
  obtain ⟨c₀, hc₀, hf⟩ := hall k
  rw [hc] at hc₀
  cases hc₀
  rcases hf.line hu with ⟨f, hr, ho⟩ | ⟨c', hr, hf'⟩
  · refine Or.inl (Or.inr ⟨k, f, ?_, ho⟩)
    rw [hclient, Function.update_self, hr]
  · refine Or.inr ⟨st, hserver.trans hst, htidy, fun j => ?_⟩
    by_cases hj : j = k
    · subst hj
      refine ⟨c', ?_, ?_⟩
      · rw [hclient, Function.update_self, hr]
      · rw [hwire, Function.update_self]
        exact hf'
    · rw [hclient, hwire, Function.update_of_ne hj, Function.update_of_ne hj]
      exact hall j

/-- The server after a request of client `k` that it has taken. -/
theorem chatInv_of_taken {t : Chat κ} {st st' : ServerState} {rq : ClientRequest}
    {rqs : List ClientRequest} (hall : ∀ j, ∃ c, s.client j = .ok c ∧
      Follows addr name st j c (s.wire j)) (hw : s.wire k = rq :: rqs) (hrq : rq.isMembership)
    (hlog : (findUser st.allUsers (addr k)).isSome) (h : Taken addr name st st' k rq)
    (hserver : t.server = .running st') (hclient : t.client = s.client)
    (hwire : t.wire = Function.update s.wire k rqs) : ChatInv addr name t := by
  refine ⟨st', hserver, h.tidy, fun j => ?_⟩
  obtain ⟨c, hc, hf⟩ := hall j
  rw [hclient, hwire]
  refine ⟨c, hc, ?_⟩
  by_cases hj : j = k
  · subst hj
    rw [Function.update_self]
    rw [hw] at hf
    refine ⟨hf.logout, hf.joined, Or.inl ⟨?_, ?_⟩, ?_⟩
    · rw [h.users]
      exact hlog
    · rcases hf.session with ⟨-, hs⟩ | ⟨-, rqs', he, -⟩
      · exact fun x hx => hs x (List.mem_cons_of_mem _ hx)
      · cases he
        cases hrq
    · have hreplay := hf.replay
      rw [List.foldlM_cons, h.settles] at hreplay
      exact hreplay
  · rw [Function.update_of_ne hj]
    exact hf.congr (by rw [h.users]) (h.others j hj)

/-- The server after the login of client `k` that it has taken. -/
theorem chatInv_of_login {t : Chat κ} {st st' : ServerState} {rqs : List ClientRequest}
    (haddr : Function.Injective addr) (hname : Function.Injective name)
    (hall : ∀ j, ∃ c, s.client j = .ok c ∧ Follows addr name st j c (s.wire j))
    (htidy : Tidy addr name st) (hnone : findUser st.allUsers (addr k) = none)
    (hw : s.wire k = .login (name k) :: rqs) (hs : ∀ x ∈ rqs, x.isMembership)
    (hr : (react st (.datagram (addr k) (.client (.login (name k))) drawn now)).result = .ok st')
    (hserver : t.server = .running st') (hclient : t.client = s.client)
    (hwire : t.wire = Function.update s.wire k rqs) : ChatInv addr name t := by
  obtain ⟨htidy', hof, hlog⟩ := htidy.login hname hnone hr
  have hcount : ∀ a, st'.entryCount a = st.entryCount a := by
    intro a
    funext d
    rw [ServerState.entryCount, hof, ServerState.entryCount]
  refine ⟨st', hserver, htidy', fun j => ?_⟩
  obtain ⟨c, hc, hf⟩ := hall j
  rw [hclient, hwire]
  refine ⟨c, hc, ?_⟩
  by_cases hj : j = k
  · subst hj
    rw [Function.update_self]
    rw [hw] at hf
    refine ⟨hf.logout, hf.joined, Or.inl ⟨(hlog _).mpr (Or.inr rfl), hs⟩, ?_⟩
    have hreplay := hf.replay
    rw [List.foldlM_cons] at hreplay
    rw [hcount]
    exact hreplay
  · rw [Function.update_of_ne hj]
    refine hf.congr ?_ (hcount _)
    rw [hlog, or_iff_left fun he => hj (haddr he)]

omit [DecidableEq κ] in
/-- A safe request leaves the server running, or a table has overrun. -/
theorem Chat.overrun_or_running {t : Chat κ} {st : ServerState}
    (ht : t.server = Node.ofResult (react st inp).result) (hsafe : Safe Sound (react st inp)) :
    t.Overrun ∨ ∃ st', (react st inp).result = .ok st' ∧ t.server = .running st' := by
  cases hr : (react st inp).result with
  | error f =>
    rw [hr] at ht
    exact Or.inl (Or.inl ⟨f, ht, hsafe.result_error hr⟩)
  | ok st' =>
    rw [hr] at ht
    exact Or.inr ⟨st', rfl, ht⟩

/-- **The server takes a request.** -/
theorem ChatInv.receive {rq : ClientRequest} {rqs : List ClientRequest}
    (haddr : Function.Injective addr) (hname : Function.Injective name) (h : ChatInv addr name s)
    (hw : s.wire k = rq :: rqs) {t : Chat κ}
    (ht : t = Chat.serve { s with wire := Function.update s.wire k rqs }
      (.datagram (addr k) (.client rq) drawn now)) : t.Overrun ∨ ChatInv addr name t := by
  obtain ⟨st, hst, htidy, hall⟩ := h
  rw [Chat.serve_of_running (show Chat.server { s with wire := Function.update s.wire k rqs } = _
    from hst)] at ht
  have hserver : t.server =
      Node.ofResult (react st (.datagram (addr k) (.client rq) drawn now)).result := by rw [ht]
  have hclient : t.client = s.client := by rw [ht]
  have hwire : t.wire = Function.update s.wire k rqs := by rw [ht]
  obtain ⟨c, hc, hf⟩ := hall k
  rw [hw] at hf
  rcases hf.session with ⟨hlog, hs⟩ | ⟨hnone, rqs', he, hs⟩
  · have hrq := hs rq List.mem_cons_self
    cases rq with
    | join d =>
      refine (Chat.overrun_or_running hserver (htidy.sound.reqJoin hlog)).imp_right ?_
      rintro ⟨st', hr, hrun⟩
      exact chatInv_of_taken hall hw hrq hlog (htidy.join haddr hlog hr) hrun hclient hwire
    | leave d =>
      have hpos : st.entryCount (addr k) d ≠ 0 := by
        intro h0
        have hreplay := hf.replay
        rw [List.foldlM_cons, settle, if_pos h0] at hreplay
        cases hreplay
      obtain ⟨st', hr, htaken⟩ := htidy.leave drawn now haddr hname hlog hpos
      rw [hr] at hserver
      exact Or.inr (chatInv_of_taken hall hw hrq hlog htaken hserver hclient hwire)
    | login u => cases hrq
    | logout => cases hrq
    | say c t => cases hrq
    | list => cases hrq
    | who c => cases hrq
    | other n => cases hrq
  · cases he
    refine (Chat.overrun_or_running hserver htidy.sound.reqLogin).imp_right ?_
    rintro ⟨st', hr, hrun⟩
    exact chatInv_of_login haddr hname hall htidy hnone hw hs hr hrun hclient hwire

/-- **The step lemma.** -/
theorem ChatInv.step {a : ChatAction κ} (haddr : Function.Injective addr)
    (hname : Function.Injective name) (h : ChatInv addr name s) (ha : s.usual a)
    (hst : Chat.step addr s a = some s') : s'.Overrun ∨ ChatInv addr name s' := by
  cases a with
  | line k buff =>
    simp only [Chat.step] at hst
    split at hst
    · cases hst
    · next c hc =>
      cases hst
      exact h.line hc ha rfl rfl rfl
  | receive k drawn now =>
    simp only [Chat.step] at hst
    split at hst
    · cases hst
    · next rq rqs hw =>
      cases hst
      exact h.receive haddr hname hw rfl
  | timeouts now =>
    cases hst
    exact Or.inr (h.round fun st ht => ht.timeouts)
  | renewal now =>
    cases hst
    exact Or.inr (h.round fun st ht => ht.renewal)

end Runs

/-- **Client and server agree.** One server without neighbours, any number of clients with distinct
addresses and names. In every run of lines that join, leave or switch, of requests taken in the
order in which each client sent them, the logins among them while there is a channel, and of the
server's rounds, as long as no table and no client's list outgrows its size: the server has not
faulted, no counter is negative, and for every client that has nothing in flight the entries of its
user in a channel are as many as the occurrences of the channel in its list. -/
theorem membership_agrees {κ : Type} [DecidableEq κ] (addr : κ → Sockaddr) (name : κ → Username)
    (haddr : Function.Injective addr) (hname : Function.Injective name) (now : ℤ)
    (acts : List (ChatAction κ)) (s : Chat κ)
    (h : Run (Chat.step addr) (fun t a => t.usual a) (Chat.start name now) acts s)
    (hcap : ¬ s.Overrun) :
    ∃ st, s.server = .running st ∧ (∀ chnl ∈ st.channels.live, 0 ≤ chnl.numUsers) ∧
      ∀ k, ∃ c, s.client k = .ok c ∧
        (s.wire k = [] → ∀ d, st.entryCount (addr k) d = c.joinedChnls.live.count d) := by
  have hinv : s.Overrun ∨ ChatInv addr name s := by
    refine h.invariant (P := fun t => t.Overrun ∨ ChatInv addr name t) (fun t a t' ht ha hst => ?_)
      (Or.inr (chatInv_start addr name now))
    rcases ht with ho | hi
    · exact Or.inl (ho.of_step hst)
    · exact hi.step haddr hname ha hst
  obtain ⟨st, hst, htidy, hall⟩ := hinv.resolve_left hcap
  refine ⟨st, hst, fun chnl hch => (htidy.sound.users chnl hch).1, fun k => ?_⟩
  obtain ⟨c, hc, hf⟩ := hall k
  refine ⟨c, hc, fun hw d => ?_⟩
  have hreplay := hf.replay
  rw [hw] at hreplay
  exact congrFun (Option.some.inj hreplay) d

namespace Three

/-- A line of text. -/
def joinX : Line := ⟨ascii "/join x", by decide, by decide⟩

def leaveCommon : Line := ⟨ascii "/leave Common", by decide, by decide⟩

/-- Two clients log in. The first joins a channel and leaves Common; the second leaves Common as
well, but its leave is still on its way. -/
def visit : List (ChatAction (Fin 3)) :=
  [.receive 0 0 0, .line 0 joinX, .receive 0 0 0, .receive 1 0 0, .receive 1 0 0, .receive 0 0 0,
    .line 0 leaveCommon, .line 1 leaveCommon, .receive 0 0 0]

end Three

open Three in
theorem membership_agrees_on_visit :
    ∃ s, Run (Chat.step client) (fun t a => t.usual a) (Chat.start username 0) visit s ∧
      s.wire 0 = [] ∧ ∃ st c, s.server = .running st ∧ s.client 0 = .ok c ∧
        st.entryCount (client 0) chnlX = c.joinedChnls.live.count chnlX ∧
        c.joinedChnls.live = [chnlX] := by
  have h : (execute (Chat.step client) (fun t a => t.usual a) (Chat.start username 0) visit).any
      (fun s => s.wire 0 = [] ∧ s.server.isRunning ∧ (∀ k, (s.client k).isOk) ∧
        ∀ c ∈ (s.client 0).toOption, c.joinedChnls.live = [chnlX]) = true := by
    decide
  obtain ⟨s, hr, hs⟩ := exists_run_of_execute h
  obtain ⟨hw, hrun, hok, hlive⟩ := of_decide_eq_true hs
  have hcap : ¬ s.Overrun := by
    rintro (⟨f, hf, -⟩ | ⟨k, f, hf, -⟩)
    · rw [hf] at hrun
      cases hrun
    · have hk := hok k
      rw [hf] at hk
      cases hk
  obtain ⟨st, hst, -, hall⟩ :=
    membership_agrees client username (by decide) (by decide) 0 visit s hr
    hcap
  obtain ⟨c, hc, hagree⟩ := hall 0
  rw [hc] at hlive
  exact ⟨s, hr, hw, st, c, hst, hc, hagree hw chnlX, hlive c rfl⟩

end DuckChat
