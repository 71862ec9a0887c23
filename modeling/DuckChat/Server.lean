import DuckChat.HelperFunctions

/-!
# The request loop (`server.c`)

The state is the locals of `main`; each `case` of the `switch` is one handler under the name of its
request code, and the two loops around the `switch`, the timeout scan and the renewal pass, are
handlers of their own. `time(NULL)` is read once for each of these, and the number that `gen_rand`
draws for a say is an argument.

A request stands for the bytes that were received; the bytes are in `Wire`. `malloc` and `sendto`
are taken to succeed. The arguments of `main`, the socket and what is printed are left out, and so
is what happens after a `Fault`.

## Main definitions

* `ServerState`, `ServerState.start`
* `reqLogin`, …, `reqServSay` — the branches of the `switch`
* `timeoutScan`, `renewalPass`
* `Input`, `react` — everything a server can be made to do
-/

set_option autoImplicit false

namespace DuckChat

def MIN_1 : ℤ := 60
def MIN_2 : ℤ := 120

/-- The locals of `main`. `heapNext` names the next block that `malloc` hands out for a user. -/
structure ServerState where
  cnnctSrvrs : List Server
  recentIds : RecentIds
  channels : Table Channel MAX_USERS
  allUsers : Table User MAX_USERS
  heapNext : ℕ
deriving DecidableEq

namespace ServerState

/-- The user records that are allocated: those in `all_users`. -/
def heap (s : ServerState) : List User := s.allUsers.live

/-- The addresses of the neighbours, `num_servers` of them. -/
def neighbours (s : ServerState) : List Sockaddr := s.cnnctSrvrs.map Server.addr

end ServerState

/-- A neighbour at start: subscribed to Common. Its timer comes out of `malloc` unset, so it is
whatever the block held. -/
def startServer (addr : Sockaddr) (unset : ℤ) : Server where
  addr := addr
  subChannels := Table.ofList [common] (by decide)
  timers := Table.ofList [unset] (show 1 ≤ MAX_CHANNELS by decide)
  inStep := rfl

/-- The state in which `main` enters its loop. -/
def ServerState.start (addrs : List Sockaddr) (unset now : ℤ) : ServerState where
  cnnctSrvrs := addrs.map fun a => startServer a unset
  recentIds := RecentIds.empty
  channels := Table.ofList [createChannel common now] one_le_MAX_USERS
  allUsers := Table.empty
  heapNext := 0

/-! ### Sending -/

/-- One `socket_send` of a text to a client. -/
def sendText (dest : Sockaddr) (t : Text) : Act Unit := Emit.emit ⟨dest, .text t⟩

/-- One `socket_send` of a packet to a neighbour. -/
def sendS2S (dest : Sockaddr) (m : S2S) : Act Unit := Emit.emit ⟨dest, .s2s m⟩

/-- The loop that sends one packet to every neighbour. -/
def broadcast (s : ServerState) (m : S2S) : Act Unit :=
  Emit.emitAll (s.neighbours.map fun a => ⟨a, .s2s m⟩)

/-- A pointer that is followed without a test. -/
def nonNull {α : Type} (p : Option α) : Except Fault α :=
  match p with
  | none => .error .null
  | some x => .ok x

/-- The result of `find_byaddr`, followed without a test. -/
def followEntry (heap : List User) (e : Option (Option User)) : Except Fault User :=
  match e with
  | none => .error .null
  | some e => deref heap e

/-! ### Requests of clients -/

/-- `channels[0]`. With an empty table the slot still holds the channel removed last, which has no
users left and is in no table: nothing observable happens to it. -/
def onSlotZero (s : ServerState) (f : Channel → Except Fault Channel) : Except Fault ServerState :=
  match s.channels.live with
  | [] => .ok s
  | chnl :: chnls => do
    let chnl ← f chnl
    pure { s with channels := s.channels.overwrite (chnl :: chnls) }

/-- `case REQ_LOGIN`. -/
def reqLogin (s : ServerState) (clientAddr : Sockaddr) (reqUsername : Username) :
    Act ServerState := do
  let usr : User := ⟨s.heapNext, reqUsername, clientAddr⟩
  let s ← Emit.lift (onSlotZero { s with heapNext := s.heapNext + 1 } fun chnl => do
    let chnl ← createUser chnl usr
    let (_, chnl) ← removeUser (usr :: s.heap) chnl usr.username
    pure chnl)
  let allUsers ← Emit.lift (store s.allUsers usr)
  pure { s with allUsers := allUsers }

/-- The loop of `case REQ_SAY` over the users of the channel. The speaker is looked up again for
every listener. -/
def sayLoop (heap : List User) (activeCh : Channel) (clientAddr : Sockaddr) (reqChannel : Name)
    (reqText : SayText) : List (Option User) → Act Unit
  | [] => pure ()
  | e :: es => do
    let found ← Emit.lift (findByaddr heap activeCh clientAddr)
    let speaker ← Emit.lift (followEntry heap found)
    let usr ← Emit.lift (deref heap e)
    sendText usr.address (.say reqChannel speaker.username reqText)
    sayLoop heap activeCh clientAddr reqChannel reqText es

/-- The packets of the last loop of `case REQ_SAY`: one for each neighbour that lists the
channel. -/
def sayPackets (s : ServerState) (m : SayS2S) : List Datagram :=
  (s.cnnctSrvrs.filter fun srvr => (findChannelServer srvr m.reqChannel).isSome).map
    fun srvr => ⟨srvr.addr, .s2s (.say m)⟩

/-- `case REQ_SAY`. An unknown channel is answered with an error and then dereferenced. -/
def reqSay (s : ServerState) (clientAddr : Sockaddr) (reqChannel : Name) (reqText : SayText)
    (drawn : Id) : Act ServerState :=
  match findChannel s.channels reqChannel with
  | none => do
    sendText clientAddr (fillError reqChannel)
    Emit.lift (.error .null)
  | some activeCh => do
    sayLoop s.heap activeCh clientAddr reqChannel reqText activeCh.entries
    let usr ← Emit.lift (nonNull (findUser s.allUsers clientAddr))
    let ids ← Emit.lift (s.recentIds.record drawn)
    Emit.emitAll (sayPackets s (s2sFillSay reqChannel usr.username reqText drawn))
    pure { s with recentIds := ids }

/-- `case REQ_JOIN`: the join is announced before the channel exists here. -/
def reqJoin (s : ServerState) (clientAddr : Sockaddr) (reqChannel : Name) (now : ℤ) :
    Act ServerState := do
  let found := findChannel s.channels reqChannel
  broadcast s (s2sFillJoin reqChannel)
  let (chnls, newChnl) ← Emit.lift (match found with
    | some chnl => .ok (s.channels, chnl)
    | none => do
      let chnls ← addChnl s.channels reqChannel now
      pure (chnls, createChannel reqChannel now))
  let chnl ← Emit.lift (addUser newChnl (findUser s.allUsers clientAddr))
  pure { s with channels := storeChannel chnls reqChannel chnl }

/-- `case REQ_LIST`. -/
def reqList (s : ServerState) (clientAddr : Sockaddr) : Act ServerState := do
  sendText clientAddr (.list (chnlNames s.channels))
  pure s

/-- The loop of `case REQ_WHO` over the entries from index `i` on: each name is copied to its slot
behind the 40 bytes of header, in a block of `whoLen` bytes. -/
def whoLoop (heap : List User) (whoLen : ℕ) : ℕ → List (Option User) → Except Fault (List Username)
  | _, [] => .ok []
  | i, e :: es => do
    let usr ← deref heap e
    if 40 + USERNAME_MAX * i + usr.username.bytes.length + 1 ≤ whoLen then
      let names ← whoLoop heap whoLen (i + 1) es
      pure (usr.username :: names)
    else .error .heap

/-- `case REQ_WHO`. The block is sized by `sizeof(struct request_who)`, 36 bytes, and the number of
all users; the channel name goes to offset 8. -/
def reqWho (s : ServerState) (clientAddr : Sockaddr) (reqChannel : Name) : Act ServerState := do
  let whoLen := 36 + USERNAME_MAX * s.allUsers.count.toNat
  if whoLen < 8 + reqChannel.bytes.length + 1 then Emit.lift (.error .heap)
  else
    match findChannel s.channels reqChannel with
    | none => do
      sendText clientAddr (whoError reqChannel)
      pure s
    | some chnl => do
      let names ← Emit.lift (whoLoop s.heap whoLen 0 chnl.entries)
      sendText clientAddr (.who reqChannel chnl.numUsers names whoLen)
      pure s

/-- `case REQ_LEAVE`. An address that is not logged in gets through when the channel is empty. -/
def reqLeave (s : ServerState) (clientAddr : Sockaddr) (reqChannel : Name) : Act ServerState :=
  match findChannel s.channels reqChannel with
  | none => do
    sendText clientAddr (fillError reqChannel)
    pure s
  | some chnl => do
    let (_, chnl') ← Emit.lift (removeUserOf s.heap chnl (findUser s.allUsers clientAddr))
    if chnl'.numUsers = 0 then do
      broadcast s (s2sFillLeave chnl'.chnlName)
      pure { s with channels := removeChnl (storeChannel s.channels reqChannel chnl') reqChannel }
    else pure { s with channels := storeChannel s.channels reqChannel chnl' }

/-- The loop of `case REQ_LOGOUT` over the channels. -/
def logoutLoop (heap : List User) (usr : Option User) : List Channel → Except Fault (List Channel)
  | [] => .ok []
  | chnl :: chnls => do
    let (_, chnl) ← removeUserOf heap chnl usr
    let chnls ← logoutLoop heap usr chnls
    pure (chnl :: chnls)

/-- `case REQ_LOGOUT`. For an address that is not logged in `u_pos` is never set. The loop over the
channels lowers the counters of empty ones, the first name it compares is at an address formed from
`NULL`, and if it gets through the shift starts at an indeterminate index. -/
def reqLogout (s : ServerState) (clientAddr : Sockaddr) : Act ServerState := do
  let usr := findUser s.allUsers clientAddr
  let chnls ← Emit.lift (logoutLoop s.heap usr s.channels.live)
  match usr with
  | none => Emit.lift (.error .unset)
  | some _ =>
    pure { s with
      channels := s.channels.overwrite chnls
      allUsers := s.allUsers.remove fun _ u => addrCmp u.address clientAddr }

/-! ### Requests of servers -/

/-- The first half of `case REQ_SERV_JOIN`: add the channel to the neighbour's record, or refresh
its timer. `has_channel_server` and `find_channel_server` are the same search. -/
def noteJoin (srvr : Server) (reqChannel : Name) (now : ℤ) : Except Fault Server :=
  match findChannelServer srvr reqChannel with
  | none => addChSrv srvr reqChannel now
  | some pos => .ok (refreshTimer srvr pos now)

/-- `case REQ_SERV_JOIN`. -/
def reqServJoin (s : ServerState) (clientAddr : Sockaddr) (reqChannel : Name) (now : ℤ) :
    Act ServerState := do
  let srvr ← Emit.lift (nonNull (findServerAddress s.cnnctSrvrs clientAddr))
  let srvr ← Emit.lift (noteJoin srvr reqChannel now)
  let s := { s with cnnctSrvrs := storeServer s.cnnctSrvrs clientAddr srvr }
  match findChannel s.channels reqChannel with
  | some _ => pure s
  | none => do
    let chnls ← Emit.lift (addChnl s.channels reqChannel now)
    broadcast s (s2sFillJoin reqChannel)
    pure { s with channels := chnls }

/-- `case REQ_SERV_LEAVE`. -/
def reqServLeave (s : ServerState) (clientAddr : Sockaddr) (reqChannel : Name) :
    Act ServerState := do
  let srv ← Emit.lift (nonNull (findServerAddress s.cnnctSrvrs clientAddr))
  let srv ← Emit.lift (removeAdjChannel srv reqChannel)
  pure { s with cnnctSrvrs := storeServer s.cnnctSrvrs clientAddr srv }

/-- The loop of `case REQ_SERV_SAY` over the users of the channel. -/
def deliverLoop (heap : List User) (ts : Text) : List (Option User) → Act Unit
  | [] => pure ()
  | e :: es => do
    let usr ← Emit.lift (deref heap e)
    sendText usr.address ts
    deliverLoop heap ts es

/-- The packets of the last loop of `case REQ_SERV_SAY`: a copy for each neighbour that lists the
channel, the sender excepted. -/
def forwardPackets (s : ServerState) (clientAddr : Sockaddr) (sss : SayS2S) : List Datagram :=
  (s.cnnctSrvrs.filter fun srvr =>
      (findChannelServer srvr sss.reqChannel).isSome && !addrCmp srvr.addr clientAddr).map
    fun srvr => ⟨srvr.addr, .s2s (.say sss)⟩

/-- `case REQ_SERV_SAY`. The result of `find_channel` is followed without a test. -/
def reqServSay (s : ServerState) (clientAddr : Sockaddr) (sss : SayS2S) : Act ServerState := do
  let dup ← Emit.lift (hasId s.recentIds sss.id)
  if dup then do
    sendS2S clientAddr (s2sFillLeave sss.reqChannel)
    pure s
  else do
    let ids ← Emit.lift (s.recentIds.record sss.id)
    let s := { s with recentIds := ids }
    let active ← Emit.lift (nonNull (findChannel s.channels sss.reqChannel))
    if active.numUsers = 0 ∧ hasChannelServers s.cnnctSrvrs sss.reqChannel ≤ 1 then do
      -- there is no one to forward this message to
      sendS2S clientAddr (s2sFillLeave sss.reqChannel)
      pure s
    else do
      deliverLoop s.heap (fillTextSay sss.reqChannel sss.reqUsername sss.reqText) active.entries
      Emit.emitAll (forwardPackets s clientAddr sss)
      pure s

/-! ### The switch -/

/-- The `switch` on `req_type`. -/
def handle (s : ServerState) (clientAddr : Sockaddr) (rq : Request) (drawn : Id) (now : ℤ) :
    Act ServerState :=
  match rq with
  | .client (.login u) => reqLogin s clientAddr u
  | .client .logout => reqLogout s clientAddr
  | .client (.join c) => reqJoin s clientAddr c now
  | .client (.leave c) => reqLeave s clientAddr c
  | .client (.say c t) => reqSay s clientAddr c t drawn
  | .client .list => reqList s clientAddr
  | .client (.who c) => reqWho s clientAddr c
  | .client (.other _) => pure s
  | .s2s (.join c) => reqServJoin s clientAddr c now
  | .s2s (.leave c) => reqServLeave s clientAddr c
  | .s2s (.say m) => reqServSay s clientAddr m

/-! ### Around the switch -/

/-- The inner loop of the timeout scan: `n` indices from `j` on are still to be looked at. The
bound is read again at every turn, and a removal leaves the index where it is. -/
def timeoutLoop (now : ℤ) : ℕ → ℕ → Server → Except Fault Server
  | 0, _, srvr => .ok srvr
  | n + 1, j, srvr =>
      match srvr.subs[j]? with
      | none => .ok srvr
      | some name =>
          if channelElapse srvr name now > MIN_2 then do
            let srvr ← removeAdjChannel srvr name
            timeoutLoop now n (j + 1) srvr
          else timeoutLoop now n (j + 1) srvr

/-- The outer loop, over the neighbours. -/
def timeoutServers (now : ℤ) : List Server → Except Fault (List Server)
  | [] => .ok []
  | srvr :: srvs => do
    let srvr ← timeoutLoop now srvr.numChnnls.toNat 1 srvr
    let srvs ← timeoutServers now srvs
    pure (srvr :: srvs)

/-- "Check late timers". -/
def timeoutScan (s : ServerState) (now : ℤ) : Act ServerState := do
  let srvs ← Emit.lift (timeoutServers now s.cnnctSrvrs)
  pure { s with cnnctSrvrs := srvs }

/-- The renewal pass over the channels from index `i` on. The `printf` in its inner loop reads the
neighbour at the index of the *channel*. -/
def renewalLoop (nbrs : List Sockaddr) (now : ℤ) : ℕ → List Channel → Act (List Channel)
  | _, [] => pure []
  | i, chnl :: chnls => do
    let chnl ←
      if now - chnl.tm > MIN_1 then do
        if nbrs ≠ [] ∧ nbrs.length ≤ i then Emit.lift (.error .read)
        else do
          Emit.emitAll (nbrs.map fun a => ⟨a, .s2s (s2sFillJoin chnl.chnlName)⟩)
          pure { chnl with tm := now }
      else pure chnl
    let chnls ← renewalLoop nbrs now (i + 1) chnls
    pure (chnl :: chnls)

/-- The code behind the label `resub`. It starts at index 1. -/
def renewalPass (s : ServerState) (now : ℤ) : Act ServerState :=
  match s.channels.live with
  | [] => pure s
  | chnl :: chnls => do
    let chnls ← renewalLoop s.neighbours now 1 chnls
    pure { s with channels := s.channels.overwrite (chnl :: chnls) }

/-! ### The loop -/

/-- The three things a server does in a turn of its loop. -/
inductive Input where
  | datagram (clientAddr : Sockaddr) (rq : Request) (drawn : Id) (now : ℤ)
  | timeouts (now : ℤ)
  | renewal (now : ℤ)
deriving DecidableEq

/-- The effect of one input. -/
def react (s : ServerState) : Input → Act ServerState
  | .datagram clientAddr rq drawn now => handle s clientAddr rq drawn now
  | .timeouts now => timeoutScan s now
  | .renewal now => renewalPass s now

/-- The branches that leave the `switch` by `continue`. -/
def skipsRenewal (s : ServerState) : Request → Bool
  | .client (.who c) => (findChannel s.channels c).isNone
  | .client (.leave c) => (findChannel s.channels c).isNone
  | _ => false

/-- One turn of the loop, with the datagram it receives, if any. -/
def iteration (s : ServerState) (received : Option (Sockaddr × Request × Id)) (now : ℤ) :
    Act ServerState := do
  let s ← timeoutScan s now
  match received with
  | none => renewalPass s now
  | some (clientAddr, rq, drawn) => do
    let s' ← handle s clientAddr rq drawn now
    if skipsRenewal s rq then pure s' else renewalPass s' now

/-- **A server's reachable states**: any inputs in any order, from the start, without a fault. -/
inductive Reachable (addrs : List Sockaddr) : ServerState → Prop where
  | start (unset now : ℤ) : Reachable addrs (ServerState.start addrs unset now)
  | step {s s' : ServerState} (i : Input) :
      Reachable addrs s → (react s i).result = .ok s' → Reachable addrs s'

/-- The loop of `main` stays inside the reachable states. -/
theorem Reachable.iteration {addrs : List Sockaddr} {s s' : ServerState}
    {received : Option (Sockaddr × Request × Id)} {now : ℤ} (h : Reachable addrs s)
    (hs : (DuckChat.iteration s received now).result = .ok s') : Reachable addrs s' := by
  rw [DuckChat.iteration, Emit.bind_eq_ok_iff] at hs
  obtain ⟨s₁, h₁, hs⟩ := hs
  have r₁ : Reachable addrs s₁ := h.step (.timeouts now) h₁
  rcases received with _ | ⟨a, rq, drawn⟩
  · exact r₁.step (.renewal now) hs
  · simp only at hs
    rw [Emit.bind_eq_ok_iff] at hs
    obtain ⟨s₂, h₂, hs⟩ := hs
    have r₂ : Reachable addrs s₂ := r₁.step (.datagram a rq drawn now) h₂
    split at hs
    · cases hs
      exact r₂
    · exact r₂.step (.renewal now) hs

end DuckChat
