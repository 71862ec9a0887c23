import DuckChat.Commands
import DuckChat.Commute
import DuckChat.JoinOrder
import DuckChat.Lines
import DuckChat.OwnBytes

/-!
# A channel name on its way

A user joins a channel, and its name goes through a line, a request, the table of a server, and then
from server to server: from each into a packet, a buffer that is never cleared, the record of the
neighbour it came from, and the next table. Every copy on the way is unbounded, or is given the
length of its argument for a bound, and every comparison is `strcmp`.

A chain of servers is run on bytes. Each is in a state of its own when the datagram arrives, so
that whatever happens meanwhile in the rest of the network is allowed for.

## Main definitions

* `strncpy`, `requestJoinBytes` — the request that `send_join_req` sends
* `Station`, `Hop`, `relay` — servers in a row, and what each of them does
* `Carries` — a datagram with a name in it
* `Hop.Keeps`, `Hop.Notes` — what is to be found at a hop

## Main results

* `requestJoinBytes_eq` — the request that is sent is the model's
* `keeps_of_relay` — from server to server, for any number of them
* `name_survives`
-/

set_option autoImplicit false

namespace DuckChat

/-! ### The request -/

/-- `strncpy` to an offset: `n` bytes, of the string as far as it goes, and then of zeros. -/
def strncpy (buf : List UInt8) (off : ℕ) (src : List UInt8) (n : ℕ) : List UInt8 :=
  put buf off (src.take n ++ List.replicate (n - src.length) 0)

/-- `send_join_req`, up to its `sendto`. Without an argument nothing is sent. -/
def requestJoinBytes (buff : List UInt8) : Option (List UInt8) :=
  let (chnl, chnlLen) := commandArg buff
  if chnlLen = 0 then none
  else
    let reqJn := zeroed sizeofRequestJoin
    let reqJn := strncpy reqJn offReqChannel (buff.drop chnl.toNat) chnlLen
    some (putNat reqJn 0 sizeofInt REQ_JOIN)

/-- `/join`, and a name. -/
def joinLine (c : Name) : Line where
  bytes := ascii "/join " ++ c.bytes
  noNul h0 := (List.mem_append.mp h0).elim (by decide) c.noNul
  fits := by
    have hlen : c.bytes.length < CHANNEL_MAX := c.fits
    have hmax : CHANNEL_MAX + 6 < BUFSIZ := by decide
    have hcmd : (ascii "/join ").length = 6 := rfl
    rw [List.length_append, hcmd]
    omega

section Request

variable {c : Name} {cl : Client} {buff str : List UInt8} {n off : ℕ}

/-- In a structure that is cleared, a `strncpy` with the length of the string for its bound finds
the terminator in its place. -/
theorem strncpy_zeroed (h : off + str.length < n) :
    strncpy (zeroed n) off str str.length = strcpy (zeroed n) off str := by
  refine List.ext_getElem? fun k => ?_
  rw [strncpy, Nat.sub_self, List.replicate_zero, List.append_nil, List.take_length, strcpy,
    getElem?_put, getElem?_put, length_zeroed, List.length_append, List.length_singleton]
  by_cases hin : off ≤ k ∧ k < off + str.length
  · rw [if_pos (by omega), if_pos (by omega), List.getElem?_append_left (by omega)]
  · rw [if_neg (by omega)]
    by_cases hk : k = off + str.length
    · -- the terminator that `strcpy` writes, and the zero that is there
      rw [if_pos (by omega), hk, Nat.add_sub_cancel_left, List.getElem?_concat_length, zeroed,
        List.getElem?_replicate, if_pos h]
    · rw [if_neg (by omega)]

/-- The argument is the end of the line. -/
theorem drop_of_getCommandArg (harg : getCommandArg buff = some str) :
    buff.drop (buff.length - str.length) = str := by
  have hsuffix : str <:+ buff :=
    ⟨firstWord buff ++ [blank], by
      rw [List.append_assoc]
      exact (getCommandArg_eq_some_iff.mp harg).symm⟩
  exact (List.suffix_iff_eq_drop.mp hsuffix).symm

/-- **The request that is sent** for a line with a name in it. The name is stored before the
type. -/
theorem requestJoinBytes_eq (harg : getCommandArg buff = some c.bytes) (hc : c.bytes ≠ []) :
    requestJoinBytes buff = some (fillRequest REQ_JOIN c) := by
  have hlen : c.bytes.length ≠ 0 := mt List.length_eq_zero_iff.mp hc
  have hfits : c.bytes.length < CHANNEL_MAX := c.fits
  have hroom : offReqChannel + c.bytes.length < sizeofRequestJoin := Nat.add_lt_add_left hfits _
  rw [requestJoinBytes, commandArg_eq, harg]
  simp only [if_neg hlen, Int.toNat_natCast, drop_of_getCommandArg harg]
  rw [strncpy_zeroed hroom, fillRequest, putNat, putNat, strcpy, strcpy,
    put_comm (Or.inr (by rw [length_leBytes]; decide))]

theorem turn_joinLine (hl : cl.logout = false) (hc : c.bytes ≠ []) :
    (cl.turn (joinLine c)).out = [.request (.join c)] := by
  have hk : decodeInput (joinLine c).bytes = .join := rfl
  have harg : getCommandArg (joinLine c).bytes = some c.bytes := rfl
  rw [Client.turn, if_neg (ne_true_of_eq_false hl), hk]
  simp only
  rw [Client.caseJoin_eq harg hc]

theorem requestJoinBytes_joinLine (hc : c.bytes ≠ []) :
    requestJoinBytes (joinLine c).bytes = some (fillRequest REQ_JOIN c) :=
  requestJoinBytes_eq rfl hc

end Request

/-! ### Servers in a row -/

/-- A request with the name: its type, and the string in its field, which ends there. -/
structure Carries (reqType : ℕ) (c : Name) (bytes : List UInt8) : Prop where
  reqType : ofLeBytes (slice bytes 0 sizeofInt) = reqType
  reqChannel : field CHANNEL_MAX bytes offReqChannel = some c

/-- A server when a datagram arrives: the address it is known by, its state, what its buffer holds,
and what its heap, its generator and its clock are going to give. -/
structure Station where
  addr : Sockaddr
  server : ServerState
  receiveLine : ReceiveLine
  mem : Heap
  drawn : Id
  now : ℤ

/-- `recvfrom`, which leaves out what the buffer has no room for. -/
def receive (bytes : List UInt8) : Received := ⟨bytes.take BUFSIZ, List.length_take_le _ _⟩

/-- What a server does with a datagram. -/
def Station.answer (st : Station) (src : Sockaddr) (bytes : List UInt8) : Wire ServerState :=
  serve st.mem st.server src (socketRecv st.receiveLine (receive bytes)) st.drawn st.now

/-- A datagram that arrived, what was sent for it, and the state behind that. -/
structure Hop where
  station : Station
  src : Sockaddr
  received : List UInt8
  sent : List (Sockaddr × List UInt8)
  after : ServerState

/-- The first datagram to an address. -/
def sentTo (dest : Sockaddr) (sent : List (Sockaddr × List UInt8)) : Option (List UInt8) :=
  (sent.find? fun d => addrCmp d.1 dest).map Prod.snd

/-- A datagram goes to the first server, and what each server sends to the next one goes there. It
ends early if a server faults, or sends nothing to the next one. -/
def relay : Sockaddr → List UInt8 → List Station → List Hop
  | _, _, [] => []
  | src, bytes, st :: sts =>
      let w := st.answer src bytes
      match w.result with
      | .error _ => []
      | .ok after =>
          ⟨st, src, bytes, w.out, after⟩ ::
            match sts.head?.bind fun next => sentTo next.addr w.out with
            | none => []
            | some bytes => relay st.addr bytes sts

/-- There is room in the tables of the server, and the name is in none of them. -/
structure Station.Open (st : Station) (c : Name) : Prop where
  channels : 0 ≤ st.server.channels.count ∧ st.server.channels.count < MAX_USERS
  tables : ∀ srvr ∈ st.server.cnnctSrvrs, 0 ≤ srvr.numChnnls ∧ srvr.numChnnls < MAX_CHANNELS
  held : c ∉ st.server.names
  listed : ∀ srvr ∈ st.server.cnnctSrvrs, c ∉ srvr.subs

/-- Two servers that are configured as neighbours of each other. -/
def Station.Adjacent (st next : Station) : Prop :=
  next.addr ∈ st.server.neighbours ∧ st.addr ∈ next.server.neighbours

/-! ### Lookups -/

/-- `rj->req_channel`, as far as `strcmp` reads it. -/
def ReceiveLine.reqChannel (buf : ReceiveLine) : List UInt8 :=
  cstring (buf.bytes.drop offReqChannel)

/-- `find_channel_server`, with any string. -/
def findChannelServerStr (srvr : Server) (str : List UInt8) : Option ℕ :=
  srvr.subs.findIdx? fun c => c.bytes == str

/-- At this hop the name is in the table of channels and in all that is sent. -/
structure Hop.Keeps (hop : Hop) (c : Name) : Prop where
  sent : hop.sent.map Prod.fst = hop.station.server.neighbours ∧
    ∀ d ∈ hop.sent, Carries REQ_SERV_JOIN c d.2
  /-- A channel was created behind the others, and a datagram is about it if it carries its name. -/
  created : ∃ chnl, chnl.chnlName = c ∧
    hop.after.channels.live = hop.station.server.channels.live ++ [chnl] ∧
    ∀ (receiveLine : ReceiveLine) (d : Received) (reqType : ℕ) (c' : Name),
      Carries reqType c' d.bytes →
        (findChannelStr hop.after.channels (socketRecv receiveLine d).reqChannel = some chnl ↔
          c' = c)

/-- At this hop the name is what arrived, and it is in the record of the neighbour it came from. -/
structure Hop.Notes (hop : Hop) (c : Name) : Prop where
  received : Carries REQ_SERV_JOIN c hop.received
  /-- An entry was added behind the others, and a datagram is about it if it carries its name. -/
  listed : ∃ srvr, findServerAddress hop.after.cnnctSrvrs hop.src = some srvr ∧
    srvr.subs = hop.station.server.subsOf hop.src ++ [c] ∧
    ∀ (receiveLine : ReceiveLine) (d : Received) (reqType : ℕ) (c' : Name),
      Carries reqType c' d.bytes →
        (findChannelServerStr srvr (socketRecv receiveLine d).reqChannel =
            some (hop.station.server.subsOf hop.src).length ↔ c' = c)

section Lookups

variable {chnls chnls' : Table Channel MAX_USERS} {chnl : Channel} {srvr : Server} {c c' : Name}
  {str : List UInt8} {subs : List Name} {reqType : ℕ} {d : Received}

theorem findChannelServerStr_bytes (srvr : Server) (c : Name) :
    findChannelServerStr srvr c.bytes = findChannelServer srvr c := by
  simp only [findChannelServerStr, CStr.bytes_beq]
  rfl

/-- A name in a datagram is the string in the buffer, whatever the buffer held before. -/
theorem hasString_of_carries (h : Carries reqType c d.bytes) (receiveLine : ReceiveLine) :
    (socketRecv receiveLine d).HasString offReqChannel c.bytes := by
  obtain ⟨h0, hstr⟩ := cstring_of_field h.reqChannel
  have hd : d.str offReqChannel = c.bytes := hstr
  rw [← hd]
  exact hasString_of_mem h0 receiveLine

theorem reqChannel_socketRecv (h : Carries reqType c d.bytes) (receiveLine : ReceiveLine) :
    (socketRecv receiveLine d).reqChannel = c.bytes :=
  (hasString_of_carries h receiveLine).2

/-- **The channel that was added** is found for its name, and for no other. -/
theorem findChannelStr_append_iff (hl : chnls'.live = chnls.live ++ [chnl])
    (hn : chnl.chnlName = c) (hc : c ∉ chnlNames chnls) :
    findChannelStr chnls' c'.bytes = some chnl ↔ c' = c := by
  rw [findChannelStr_bytes]
  constructor
  · intro h
    exact (findChannel_some h).2.symm.trans hn
  · rintro rfl
    have hnone := findChannel_eq_none_iff.mpr hc
    rw [findChannel] at hnone ⊢
    rw [hl, List.find?_append, hnone]
    simp [chnlCmp, hn]

/-- **So is the entry.** -/
theorem findChannelServerStr_append_iff (hs : srvr.subs = subs ++ [c]) (hc : c ∉ subs) :
    findChannelServerStr srvr c'.bytes = some subs.length ↔ c' = c := by
  rw [findChannelServerStr_bytes, findChannelServer, hs]
  constructor
  · intro h
    obtain ⟨hlt, hp, -⟩ := List.findIdx?_eq_some_iff_getElem.mp h
    rw [List.getElem_concat_length rfl] at hp
    exact (beq_iff_eq.mp hp).symm
  · rintro rfl
    have hnone : subs.findIdx? (fun x => x == c') = none := by
      rw [List.findIdx?_eq_none_iff]
      exact fun x hx => beq_eq_false_iff_ne.mpr fun heq => hc (heq ▸ hx)
    rw [List.findIdx?_append, hnone]
    simp

end Lookups

/-! ### One server -/

/-- The join that a server sends to its neighbours. -/
def joinsTo (nbrs : List Sockaddr) (c : Name) : List (Sockaddr × List UInt8) :=
  nbrs.map fun b => (b, fillRequest REQ_SERV_JOIN c)

section Step

variable {st next : Station} {src : Sockaddr} {c : Name} {s s' : ServerState} {now : ℤ}
  {after : ServerState} {bytes : List UInt8}

theorem carries_fillRequest {reqType : ℕ} (h : reqType < 256) (c : Name) :
    Carries reqType c (fillRequest reqType c) :=
  ⟨reqType_fillRequest h c, field_fillRequest reqType c⟩

theorem receive_fillRequest (reqType : ℕ) (c : Name) :
    (receive (fillRequest reqType c)).bytes = fillRequest reqType c := by
  refine List.take_of_length_le ?_
  rw [length_fillRequest]
  decide

theorem Station.Open.not_mem_subsOf (h : st.Open c) (src : Sockaddr) :
    c ∉ st.server.subsOf src := by
  rw [ServerState.subsOf]
  split
  · next srvr hs => exact h.listed srvr (findServerAddress_some hs).1
  · exact List.not_mem_nil

/-- The request of a client is handled as in the model. -/
theorem answer_join (st : Station) (src : Sockaddr) (c : Name) :
    st.answer src (fillRequest REQ_JOIN c) = encodeAct st.mem (reqJoin st.server src c st.now) := by
  have hc : Carries REQ_JOIN c (receive (fillRequest REQ_JOIN c)).bytes := by
    rw [receive_fillRequest]
    exact carries_fillRequest (by decide) c
  have htype : (socketRecv st.receiveLine (receive (fillRequest REQ_JOIN c))).reqType =
      REQ_JOIN := by
    rw [ReceiveLine.reqType, slice_socketRecv]
    · exact hc.reqType
    · rw [receive_fillRequest, length_fillRequest]
      decide
  have hholds : (socketRecv st.receiveLine (receive (fillRequest REQ_JOIN c))).Holds
      (.client (.join c)) := ⟨htype, hasString_of_carries hc _⟩
  exact serve_eq_handle hholds

/-- And so is the packet of a server. -/
theorem answer_servJoin (st : Station) (src : Sockaddr) (c : Name) :
    st.answer src (fillRequest REQ_SERV_JOIN c) =
      encodeAct st.mem (reqServJoin st.server src c st.now) :=
  serve_bytes (.join c) (by rw [bytes_socketRecv, receive_fillRequest]; rfl)

/-- A channel that is new is created behind the others. -/
theorem exists_reqJoin_new (hc : c ∉ s.names) (h0 : 0 ≤ s.channels.count)
    (hlt : s.channels.count < MAX_USERS) (src : Sockaddr) (now : ℤ) :
    ∃ s', (reqJoin s src c now).result = .ok s' ∧
      ∃ chnl, chnl.chnlName = c ∧ s'.channels.live = s.channels.live ++ [chnl] := by
  obtain ⟨chnls, ht⟩ := exists_store (createChannel c now) h0 hlt
  have ht : addChnl s.channels c now = .ok chnls := ht
  have hroom : (0 : ℤ) < MAX_USERS := by decide
  have hempty : 0 ≤ (createChannel c now).numUsers := Int.le_refl 0
  obtain ⟨chnl, hadd⟩ := exists_addUser (findUser s.allUsers src) hempty hroom
  have hname : chnl.chnlName = c := (addUser_eq_ok_iff.mp hadd).2.2.2.2.1
  refine ⟨_, reqJoin_new (findChannel_eq_none_iff.mpr hc) ht hadd, chnl, hname, ?_⟩
  have hnot : ∀ x ∈ s.channels.live, chnlCmp c x = false := fun x hx =>
    eq_false_of_ne_true (List.find?_eq_none.mp (findChannel_eq_none_iff.mpr hc) x hx)
  have hself : chnlCmp c (createChannel c now) = true := beq_self_eq_true c
  show (storeChannel chnls c chnl).live = _
  rw [live_storeChannel, (addChnl_eq_ok_iff.mp ht).2.2.1, replaceFirst_append hnot, replaceFirst,
    if_pos hself]

/-- What a server sends for a join of a new channel, as bytes. -/
theorem map_encode_joins (mem : Heap) (nbrs : List Sockaddr) (c : Name) :
    (nbrs.map fun b => (⟨b, .s2s (.join c)⟩ : Datagram)).map (Datagram.encode mem) =
      joinsTo nbrs c := by
  rw [List.map_map]
  rfl

theorem Hop.keeps (hop : Hop) (h : hop.station.Open c)
    (hsent : hop.sent = joinsTo hop.station.server.neighbours c)
    (hlive : ∃ chnl, chnl.chnlName = c ∧
      hop.after.channels.live = hop.station.server.channels.live ++ [chnl]) : hop.Keeps c := by
  obtain ⟨chnl, hname, hl⟩ := hlive
  refine ⟨⟨?_, ?_⟩, chnl, hname, hl, fun receiveLine d reqType c' hd => ?_⟩
  · rw [hsent, joinsTo, List.map_map]
    exact List.map_id _
  · intro d hd
    rw [hsent] at hd
    obtain ⟨b, -, rfl⟩ := List.mem_map.mp hd
    exact carries_fillRequest (by decide) c
  · rw [reqChannel_socketRecv hd]
    exact findChannelStr_append_iff hl hname h.held

/-- **The first server.** -/
theorem answer_first (h : st.Open c) (src : Sockaddr) :
    ∃ after, st.answer src (fillRequest REQ_JOIN c) =
        ⟨joinsTo st.server.neighbours c, .ok after⟩ ∧
      Hop.Keeps ⟨st, src, fillRequest REQ_JOIN c, joinsTo st.server.neighbours c, after⟩ c := by
  obtain ⟨after, hok, hlive⟩ := exists_reqJoin_new h.held h.channels.1 h.channels.2 src st.now
  refine ⟨after, ?_, Hop.keeps _ h rfl hlive⟩
  rw [answer_join, encodeAct, reqJoin_out, hok, map_encode_joins]
  rfl

theorem Station.Open.nonNeg (h : st.Open c) : NonNeg st.server :=
  ⟨h.channels.1, fun srvr hm => (h.tables srvr hm).1⟩

theorem Station.Open.joinsFit (h : st.Open c) (src : Sockaddr) :
    JoinsFit st.server [(src, c)] where
  channels := by
    have hlt := h.channels.2
    rw [count_channels_eq_length h.channels.1] at hlt
    have hone : (fresh st.server.names [c]).length = 1 := by
      rw [fresh_singleton_of_not_mem h.held, List.length_singleton]
    show _ + (fresh st.server.names [c]).length ≤ _
    omega
  subs b hb := by
    obtain ⟨srvr, hs⟩ := Option.isSome_iff_exists.mp (isSome_findServerAddress_iff.mpr hb)
    obtain ⟨h0, hlt⟩ := h.tables srvr (findServerAddress_some hs).1
    rw [numChnnls_eq_length h0] at hlt
    rw [subsOf_eq hs]
    by_cases hbs : src = b
    · subst hbs
      rw [channelsFrom_self,
        fresh_singleton_of_not_mem (h.listed srvr (findServerAddress_some hs).1),
        List.length_singleton]
      omega
    · rw [channelsFrom_of_ne hbs, fresh_nil, List.length_nil]
      omega

theorem Hop.notes (hop : Hop) (h : hop.station.Open c)
    (hrecv : hop.received = fillRequest REQ_SERV_JOIN c)
    (hlisted : ∃ srvr, findServerAddress hop.after.cnnctSrvrs hop.src = some srvr ∧
      srvr.subs = hop.station.server.subsOf hop.src ++ [c]) : hop.Notes c := by
  obtain ⟨srvr, hs, hsubs⟩ := hlisted
  refine ⟨?_, srvr, hs, hsubs, fun receiveLine d reqType c' hd => ?_⟩
  · rw [hrecv]
    exact carries_fillRequest (by decide) c
  · rw [reqChannel_socketRecv hd]
    exact findChannelServerStr_append_iff hsubs (h.not_mem_subsOf _)

/-- **A server further on**, with a neighbour in front of it. -/
theorem answer_next (h : st.Open c) (hsrc : src ∈ st.server.neighbours) :
    ∃ after hop, st.answer src (fillRequest REQ_SERV_JOIN c) =
        ⟨joinsTo st.server.neighbours c, .ok after⟩ ∧
      hop = Hop.mk st src (fillRequest REQ_SERV_JOIN c) (joinsTo st.server.neighbours c) after ∧
      hop.Keeps c ∧ hop.Notes c := by
  obtain ⟨after, hok⟩ := exists_reqServJoin st.now h.nonNeg hsrc (h.joinsFit src)
  rcases reqServJoin_cases st.server src c st.now with
    ⟨f, hf, -⟩ | ⟨srvr, srvr', _, hs, hj, rfl, ⟨hc, -⟩ | ⟨-, chnls, hadd, hr, ho⟩⟩
  · cases hf.symm.trans hok
  · exact absurd hc h.held
  · have haddr : srvr'.addr = src := (addr_noteJoin hj).trans (findServerAddress_some hs).2
    have hsubs : srvr'.subs = st.server.subsOf src ++ [c] := by
      rw [subs_noteJoin hj, subsOf_eq hs,
        fresh_singleton_of_not_mem (h.listed srvr (findServerAddress_some hs).1)]
    have hanswer : st.answer src (fillRequest REQ_SERV_JOIN c) =
        ⟨joinsTo st.server.neighbours c, .ok { st.server with
          cnnctSrvrs := storeServer st.server.cnnctSrvrs src srvr'
          channels := chnls }⟩ := by
      rw [answer_servJoin, encodeAct, ho, hr, map_encode_joins]
      rfl
    exact ⟨_, _, hanswer, rfl,
      Hop.keeps _ h rfl ⟨createChannel c st.now, rfl, (addChnl_eq_ok_iff.mp hadd).2.2.1⟩,
      Hop.notes _ h rfl ⟨srvr', findServerAddress_storeServer_self haddr hsrc, hsubs⟩⟩

end Step

/-! ### The chain -/

section Chain

variable {st : Station} {sts : List Station} {src : Sockaddr} {c : Name} {after : ServerState}
  {bytes : List UInt8}

theorem sentTo_joinsTo {dest : Sockaddr} {nbrs : List Sockaddr} (h : dest ∈ nbrs) (c : Name) :
    sentTo dest (joinsTo nbrs c) = some (fillRequest REQ_SERV_JOIN c) := by
  obtain ⟨d, hd⟩ := Option.isSome_iff_exists.mp (List.find?_isSome.mpr
    ⟨(dest, fillRequest REQ_SERV_JOIN c), List.mem_map_of_mem h, addrCmp_iff.mpr rfl⟩ :
      ((joinsTo nbrs c).find? fun d => addrCmp d.1 dest).isSome)
  obtain ⟨b, -, rfl⟩ := List.mem_map.mp (List.mem_of_find?_eq_some hd)
  rw [sentTo, hd]
  rfl

/-- A server that announces the name is followed by the rest of the chain. -/
theorem relay_cons (hadj : ∀ next ∈ sts.head?, st.Adjacent next)
    (h : st.answer src bytes = ⟨joinsTo st.server.neighbours c, .ok after⟩) :
    relay src bytes (st :: sts) =
      ⟨st, src, bytes, joinsTo st.server.neighbours c, after⟩ ::
        relay st.addr (fillRequest REQ_SERV_JOIN c) sts := by
  rw [relay]
  simp only [h]
  cases sts with
  | nil => rfl
  | cons next sts =>
    have hsent := sentTo_joinsTo (hadj next rfl).1 c
    simp only [List.head?_cons, Option.bind_some, hsent]

/-- **From server to server.** -/
theorem keeps_of_relay (hopen : ∀ st ∈ sts, st.Open c) (hadj : sts.IsChain Station.Adjacent)
    (hsrc : ∀ st ∈ sts.head?, src ∈ st.server.neighbours) :
    (relay src (fillRequest REQ_SERV_JOIN c) sts).map Hop.station = sts ∧
      ∀ hop ∈ relay src (fillRequest REQ_SERV_JOIN c) sts, hop.Keeps c ∧ hop.Notes c := by
  induction sts generalizing src with
  | nil => exact ⟨rfl, List.forall_mem_nil _⟩
  | cons st sts ih =>
    rw [List.forall_mem_cons] at hopen
    rw [List.isChain_cons] at hadj
    obtain ⟨after, _, hanswer, rfl, hkeeps, hnotes⟩ := answer_next hopen.1 (hsrc st rfl)
    obtain ⟨hall, hhops⟩ := ih hopen.2 hadj.2 fun next hnext => (hadj.1 next hnext).2
    rw [relay_cons hadj.1 hanswer]
    exact ⟨congrArg (st :: ·) hall, List.forall_mem_cons.mpr ⟨⟨hkeeps, hnotes⟩, hhops⟩⟩

end Chain

/-- **A channel name survives every hop.** A client that decodes `/join ` and a name sends a request
with the name in it. It goes along a chain of any number of servers, all of which have room and do
not have the name yet, and reaches every one of them. Each creates a channel with the name, and
sends the name to all its neighbours; each but the first is sent the name, and lists it for the
neighbour in front. At every hop, what is found for a name that arrives is the new channel, and the
new entry, exactly if it is this name. -/
theorem name_survives {c : Name} {cl : Client} {chain : List Station} (hl : cl.logout = false)
    (hc : c.bytes ≠ []) (hopen : ∀ st ∈ chain, st.Open c) (hadj : chain.IsChain Station.Adjacent)
    (clientAddr : Sockaddr) :
    ∃ reqJn, (cl.turn (joinLine c)).out = [.request (.join c)] ∧
      requestJoinBytes (joinLine c).bytes = some reqJn ∧ Carries REQ_JOIN c reqJn ∧
      (relay clientAddr reqJn chain).map Hop.station = chain ∧
      (∀ hop ∈ relay clientAddr reqJn chain, hop.Keeps c) ∧
      ∀ hop ∈ (relay clientAddr reqJn chain).tail, hop.Notes c := by
  refine ⟨_, turn_joinLine hl hc, requestJoinBytes_joinLine hc, carries_fillRequest (by decide) c,
    ?_⟩
  cases chain with
  | nil => exact ⟨rfl, List.forall_mem_nil _, List.forall_mem_nil _⟩
  | cons st sts =>
    rw [List.forall_mem_cons] at hopen
    rw [List.isChain_cons] at hadj
    obtain ⟨after, hanswer, hkeeps⟩ := answer_first hopen.1 clientAddr
    have hsrc : ∀ next ∈ sts.head?, st.addr ∈ next.server.neighbours := fun next hnext =>
      (hadj.1 next hnext).2
    obtain ⟨hall, hhops⟩ := keeps_of_relay hopen.2 hadj.2 hsrc
    rw [relay_cons hadj.1 hanswer]
    exact ⟨congrArg (st :: ·) hall,
      List.forall_mem_cons.mpr ⟨hkeeps, fun hop hhop => (hhops hop hhop).1⟩,
      fun hop hhop => (hhops hop hhop).2⟩

namespace Three

/-- A name with a blank in it. -/
def twoWords : Name := ⟨ascii "a b", by decide, by decide⟩

/-- The servers of the line, with rubbish in their buffers. -/
def station (i : Fin 3) : Station := ⟨addr i, withUser i, .fill 255, fun _ => 170, 0, 0⟩

end Three

open Three in
theorem name_survives_on_line :
    ∃ reqJn, requestJoinBytes (joinLine twoWords).bytes = some reqJn ∧
      (relay (client 0) reqJn [station 0, station 1, station 2]).map Hop.station =
        [station 0, station 1, station 2] ∧
      ∀ hop ∈ relay (client 0) reqJn [station 0, station 1, station 2], hop.Keeps twoWords := by
  have hopen : ∀ i, (station i).Open twoWords := fun i =>
    { channels := by revert i; decide
      tables := by revert i; decide
      held := by revert i; decide
      listed := by revert i; decide }
  have hadj : [station 0, station 1, station 2].IsChain Station.Adjacent := by
    simp only [List.isChain_cons_cons, List.isChain_singleton, and_true]
    exact ⟨by constructor <;> decide, by constructor <;> decide⟩
  have hall : ∀ st ∈ [station 0, station 1, station 2], st.Open twoWords :=
    List.forall_mem_cons.mpr ⟨hopen 0, List.forall_mem_cons.mpr ⟨hopen 1,
      List.forall_mem_singleton.mpr (hopen 2)⟩⟩
  have hc : twoWords.bytes ≠ [] := by decide
  have hl : Client.start.logout = false := rfl
  obtain ⟨reqJn, -, hreq, -, hstations, hkeeps, -⟩ := name_survives hl hc hall hadj (client 0)
  exact ⟨reqJn, hreq, hstations, hkeeps⟩

end DuckChat
