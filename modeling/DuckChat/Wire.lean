import DuckChat.Client
import DuckChat.Layout

/-!
# Datagrams as bytes

What a server does with a datagram, down to the bytes it reads and sends. `receive_line` is cast to
the structure that `req_type` asks for, whatever was received: a number is read where it stands, and
a string from the start of its field up to the next `NUL` of the buffer. The strings are copied to
fields of their own, and from there on the handlers of the model are at work; their datagrams are
encoded.

Three things cannot be said with the requests of the model. A name without a terminator in its field
runs on behind it; it is in no table, and is answered with an error that repeats it, where it fits.
The say of a server is passed on as it stands in the buffer. And the reply to a list is written into
a block that is not cleared.

## Main definitions

* `ReceiveLine`, `Received`, `socketRecv` — the buffer, and what arrives in it
* `string`, `readField` — strings in the buffer, and their copies
* `Datagram.encode` — a datagram as bytes, with what `malloc` left in its block
* `serve` — the `switch`, on the buffer

## Main results

* `serve_eq_handle` — on a buffer that holds a request, `serve` is the handler of the model
* `serve_bytes` — it is on a packet of another server
-/

set_option autoImplicit false

namespace DuckChat

def REQ_LOGIN : ℕ := 0
def REQ_LOGOUT : ℕ := 1
def REQ_JOIN : ℕ := 2
def REQ_LEAVE : ℕ := 3
def REQ_SAY : ℕ := 4
def REQ_LIST : ℕ := 5
def REQ_WHO : ℕ := 6

/-- The codes that the `switch` knows. -/
def reqTypes : List ℕ :=
  [REQ_LOGIN, REQ_SAY, REQ_JOIN, REQ_LIST, REQ_WHO, REQ_LEAVE, REQ_LOGOUT, REQ_SERV_JOIN,
    REQ_SERV_LEAVE, REQ_SERV_SAY]

def TXT_LIST : ℕ := 1
def TXT_WHO : ℕ := 2
def TXT_ERROR : ℕ := 3

/-! ### Bytes in -/

/-- `receive_line`. -/
structure ReceiveLine where
  bytes : List UInt8
  size : bytes.length = BUFSIZ

/-- The bytes of a datagram, as many as the buffer takes. -/
structure Received where
  bytes : List UInt8
  fits : bytes.length ≤ BUFSIZ

/-- `socket_recv`: what the buffer held behind the datagram it goes on holding. -/
def socketRecv (receiveLine : ReceiveLine) (d : Received) : ReceiveLine where
  bytes := put receiveLine.bytes 0 d.bytes
  size := length_put.trans receiveLine.size

/-- The ways the handling of a datagram stops: a string is read behind the end of the buffer, or the
handler faults. -/
inductive Stop where
  | overread
  | fault (f : Fault)
deriving DecidableEq

/-- The effect of the byte level: bytes sent, and a result or a stop. -/
abbrev Wire (α : Type) : Type := Emit (Sockaddr × List UInt8) Stop α

/-- A computation that may fault and sends nothing. -/
def liftFault {α : Type} (r : Except Fault α) : Wire α := Emit.lift (r.mapError .fault)

/-- The string at an offset of the buffer. -/
def string (buf : ReceiveLine) (off : ℕ) : Wire (List UInt8) :=
  Emit.lift (if 0 ∈ buf.bytes.drop off then .ok (cstring (buf.bytes.drop off))
    else .error .overread)

/-- A string that is copied to a field of `n` bytes. -/
def readField (n : ℕ) (buf : ReceiveLine) (off : ℕ) : Wire (CStr n) := do
  let str ← string buf off
  liftFault (copyTo n str)

/-- `rq->req_type`. -/
def ReceiveLine.reqType (buf : ReceiveLine) : ℕ := ofLeBytes (slice buf.bytes 0 sizeofInt)

/-- `sss->id`. -/
def ReceiveLine.sayId (buf : ReceiveLine) : Id :=
  UInt64.ofNat (ofLeBytes (slice buf.bytes offSayId sizeofLong))

/-! ### Bytes out -/

/-- What a fresh block of `malloc` holds, by offset. -/
abbrev Heap : Type := ℕ → UInt8

/-- A `struct text_error`, cleared and filled. -/
def textError (str : List UInt8) : List UInt8 :=
  strcpy (putNat (zeroed (sizeofInt + SAY_MAX)) 0 sizeofInt TXT_ERROR) sizeofInt str

def offTxtChannels : ℕ := sizeofInt + sizeofInt

/-- The loop of `case REQ_LIST` over the channels from index `i` on. -/
def listLoop : List UInt8 → ℕ → List Name → List UInt8
  | reL, _, [] => reL
  | reL, i, c :: cs =>
      listLoop (strcpy reL (offTxtChannels + CHANNEL_MAX * i) c.bytes) (i + 1) cs

/-- The reply to a list, in a block that is not cleared. -/
def textList (mem : Heap) (names : List Name) : List UInt8 :=
  let reL := (List.range (offTxtChannels + CHANNEL_MAX * names.length)).map mem
  let reL := putNat reL 0 sizeofInt TXT_LIST
  let reL := putNat reL sizeofInt sizeofInt names.length
  listLoop reL 0 names

/-- The loop of `case REQ_WHO` over the names from index `i` on. -/
def copyNames : List UInt8 → ℕ → List Username → List UInt8
  | who, _, [] => who
  | who, i, u :: us => copyNames (strcpy who (40 + USERNAME_MAX * i) u.bytes) (i + 1) us

/-- The reply to a who, in a block that is cleared. -/
def textWho (channel : Name) (nusernames : ℤ) (users : List Username) (whoLen : ℕ) : List UInt8 :=
  let who := putNat (zeroed whoLen) 0 sizeofInt TXT_WHO
  let who := strcpy who 8 channel.bytes
  let who := putNat who sizeofInt sizeofInt (nusernames % 4294967296).toNat
  copyNames who 0 users

/-- A text as it is sent. -/
def Text.encode (mem : Heap) : Text → List UInt8
  | .say c u t => saySend c u t
  | .list names => textList mem names
  | .who c n users whoLen => textWho c n users whoLen
  | .error str => textError str.bytes

/-- One `sendto`. -/
def Datagram.encode (mem : Heap) (d : Datagram) : Sockaddr × List UInt8 :=
  match d.payload with
  | .text t => (d.dest, t.encode mem)
  | .s2s m => (d.dest, m.bytes)

/-- A handler of the model, with its datagrams as bytes. -/
def encodeAct {α : Type} (mem : Heap) (x : Act α) : Wire α :=
  ⟨x.out.map (Datagram.encode mem), x.result.mapError .fault⟩

/-! ### The switch -/

section Serve

variable (mem : Heap) (s : ServerState) (clientAddr : Sockaddr) (buf : ReceiveLine)

/-- `find_channel`, with any string. -/
def findChannelStr (chnls : Table Channel MAX_USERS) (str : List UInt8) : Option Channel :=
  chnls.live.find? fun chnl => chnl.chnlName.bytes == str

/-- `fill_error` and the `socket_send` of what it returns, with any string. -/
def sendError (str : List UInt8) : Wire Unit :=
  let txtError := ascii "Error: Cannot find channel: " ++ str
  if txtError.length < SAY_MAX then Emit.emit (clientAddr, textError txtError)
  else liftFault (.error (.store .above))

/-- `case REQ_LOGIN`. -/
def serveLogin : Wire ServerState := do
  let reqUsername ← readField USERNAME_MAX buf offReqChannel
  encodeAct mem (reqLogin s clientAddr reqUsername)

/-- `case REQ_JOIN`. -/
def serveJoin (now : ℤ) : Wire ServerState := do
  let reqChannel ← readField CHANNEL_MAX buf offReqChannel
  encodeAct mem (reqJoin s clientAddr reqChannel now)

/-- `case REQ_WHO`. -/
def serveWho : Wire ServerState := do
  let reqChannel ← readField CHANNEL_MAX buf offReqChannel
  encodeAct mem (reqWho s clientAddr reqChannel)

/-- `case REQ_LEAVE`. -/
def serveLeave : Wire ServerState := do
  let reqChannel ← string buf offReqChannel
  match findChannelStr s.channels reqChannel with
  | none => do
    sendError clientAddr reqChannel
    pure s
  | some chnl => encodeAct mem (reqLeave s clientAddr chnl.chnlName)

/-- `case REQ_SAY`. The text is read for the first user of the channel, and else for the packet to
the servers, once there is a user to name in it. -/
def serveSay (drawn : Id) : Wire ServerState := do
  let reqChannel ← string buf offReqChannel
  match findChannelStr s.channels reqChannel with
  | none => do
    sendError clientAddr reqChannel
    liftFault (.error .null)
  | some activeCh =>
      if activeCh.entries = [] ∧ findUser s.allUsers clientAddr = none then
        liftFault (.error .null)
      else do
        let reqText ← readField SAY_MAX buf (offReqChannel + CHANNEL_MAX)
        encodeAct mem (reqSay s clientAddr activeCh.chnlName reqText drawn)

/-- `case REQ_SERV_JOIN`. A sender who is no neighbour is followed as `NULL` before the name is
read. -/
def serveServJoin (now : ℤ) : Wire ServerState :=
  match findServerAddress s.cnnctSrvrs clientAddr with
  | none => liftFault (.error .null)
  | some _ => do
    let reqChannel ← readField CHANNEL_MAX buf offReqChannel
    encodeAct mem (reqServJoin s clientAddr reqChannel now)

/-- `case REQ_SERV_LEAVE`. The removal is told a position and compares no name, so any name will do
for the string in the buffer; it is read by the `printf` that comes after. -/
def serveServLeave : Wire ServerState := do
  let srv ← liftFault (nonNull (findServerAddress s.cnnctSrvrs clientAddr))
  let srv ← liftFault (removeAdjChannel srv common)
  let _ ← string buf offReqChannel
  pure { s with cnnctSrvrs := storeServer s.cnnctSrvrs clientAddr srv }

/-- The neighbours that the last loop of `case REQ_SERV_SAY` sends to. -/
def forwardAddrs (reqChannel : Name) : List Sockaddr :=
  (s.cnnctSrvrs.filter fun srvr =>
    (findChannelServer srvr reqChannel).isSome && !addrCmp srvr.addr clientAddr).map Server.addr

/-- `case REQ_SERV_SAY` behind its first `printf`, on the strings and the identifier of the packet,
and on its bytes as they stand in the buffer. -/
def servSay (id : Id) (reqUsername reqChannel reqText sss : List UInt8) : Wire ServerState := do
  let dup ← liftFault (hasId s.recentIds id)
  if dup then do
    let reqChannel ← liftFault (copyTo CHANNEL_MAX reqChannel)
    Emit.emit (clientAddr, (S2S.leave reqChannel).bytes)
    pure s
  else do
    let ids ← liftFault (s.recentIds.record id)
    let s := { s with recentIds := ids }
    let active ← liftFault (nonNull (findChannelStr s.channels reqChannel))
    if active.numUsers = 0 ∧ hasChannelServers s.cnnctSrvrs active.chnlName ≤ 1 then do
      Emit.emit (clientAddr, (S2S.leave active.chnlName).bytes)
      pure s
    else do
      let reqUsername ← liftFault (copyTo USERNAME_MAX reqUsername)
      let reqText ← liftFault (copyTo SAY_MAX reqText)
      encodeAct mem
        (deliverLoop s.heap (fillTextSay active.chnlName reqUsername reqText) active.entries)
      Emit.emitAll ((forwardAddrs s clientAddr active.chnlName).map fun b => (b, sss))
      pure s

/-- `case REQ_SERV_SAY`. -/
def serveServSay : Wire ServerState := do
  let reqUsername ← string buf offSayUsername
  let reqChannel ← string buf offSayChannel
  let reqText ← string buf offSayText
  servSay mem s clientAddr buf.sayId reqUsername reqChannel reqText
    (slice buf.bytes 0 sizeofRequestSayS2S)

/-- The `switch` on `rq->req_type`. -/
def serve (drawn : Id) (now : ℤ) : Wire ServerState :=
  if buf.reqType = REQ_LOGIN then serveLogin mem s clientAddr buf
  else if buf.reqType = REQ_SAY then serveSay mem s clientAddr buf drawn
  else if buf.reqType = REQ_JOIN then serveJoin mem s clientAddr buf now
  else if buf.reqType = REQ_LIST then encodeAct mem (reqList s clientAddr)
  else if buf.reqType = REQ_WHO then serveWho mem s clientAddr buf
  else if buf.reqType = REQ_LEAVE then serveLeave mem s clientAddr buf
  else if buf.reqType = REQ_LOGOUT then encodeAct mem (reqLogout s clientAddr)
  else if buf.reqType = REQ_SERV_JOIN then serveServJoin mem s clientAddr buf now
  else if buf.reqType = REQ_SERV_LEAVE then serveServLeave s clientAddr buf
  else if buf.reqType = REQ_SERV_SAY then serveServSay mem s clientAddr buf
  else pure s

end Serve

/-! ### Rules for encoded handlers -/

section Rules

variable {α β : Type} {mem : Heap} {s : ServerState} {a : Sockaddr} {c : Name}

@[simp] theorem encodeAct_bind (x : Act α) (f : α → Act β) :
    encodeAct mem (x >>= f) = encodeAct mem x >>= fun v => encodeAct mem (f v) := by
  obtain ⟨o, e | v⟩ := x
  · rfl
  · simp [encodeAct, Except.mapError]

@[simp] theorem encodeAct_pure (v : α) : encodeAct mem (pure v) = pure v := rfl

@[simp] theorem encodeAct_lift (r : Except Fault α) :
    encodeAct mem (Emit.lift r) = liftFault r := rfl

@[simp] theorem encodeAct_emit (d : Datagram) :
    encodeAct mem (Emit.emit d) = Emit.emit (d.encode mem) := rfl

@[simp] theorem encodeAct_emitAll (ds : List Datagram) :
    encodeAct mem (Emit.emitAll ds) = Emit.emitAll (ds.map (Datagram.encode mem)) := rfl

@[simp] theorem liftFault_ok (v : α) : (liftFault (.ok v) : Wire α) = pure v := rfl

@[simp] theorem liftFault_error_bind (f : Fault) (k : α → Wire β) :
    (liftFault (.error f) >>= k) = liftFault (.error f) := rfl

@[simp] theorem wire_pure_bind (v : α) (k : α → Wire β) : ((pure v : Wire α) >>= k) = k v := by
  simp

/-- `strcmp` on the bytes of strings is equality. -/
theorem CStr.bytes_beq {n : ℕ} (x y : CStr n) : (x.bytes == y.bytes) = (x == y) := by
  rw [Bool.eq_iff_iff, beq_iff_eq, beq_iff_eq]
  exact ⟨CStr.ext, congrArg CStr.bytes⟩

/-- With the bytes of a name, the search is that of the model. -/
theorem findChannelStr_bytes (chnls : Table Channel MAX_USERS) (c : Name) :
    findChannelStr chnls c.bytes = findChannel chnls c := by
  simp only [findChannelStr, CStr.bytes_beq]
  rfl

theorem sendError_bytes (c : Name) :
    sendError a c.bytes = encodeAct mem (sendText a (fillError c)) := by
  have hlt : (ascii "Error: Cannot find channel: " ++ c.bytes).length < SAY_MAX := by
    have h : c.bytes.length < 32 := c.fits
    have h' : (ascii "Error: Cannot find channel: ").length = 28 := by decide
    rw [List.length_append, h', SAY_MAX]
    omega
  rw [sendError, if_pos hlt]
  rfl

end Rules

/-! ### A buffer that holds a request -/

/-- The string at an offset. -/
def ReceiveLine.HasString (buf : ReceiveLine) (off : ℕ) (str : List UInt8) : Prop :=
  0 ∈ buf.bytes.drop off ∧ cstring (buf.bytes.drop off) = str

/-- The buffer holds a request: its code, and each of its strings at its place. The say of a server
is there byte for byte. -/
def ReceiveLine.Holds (buf : ReceiveLine) : Request → Prop
  | .client (.login u) => buf.reqType = REQ_LOGIN ∧ buf.HasString offReqChannel u.bytes
  | .client .logout => buf.reqType = REQ_LOGOUT
  | .client (.join c) => buf.reqType = REQ_JOIN ∧ buf.HasString offReqChannel c.bytes
  | .client (.leave c) => buf.reqType = REQ_LEAVE ∧ buf.HasString offReqChannel c.bytes
  | .client (.say c t) => buf.reqType = REQ_SAY ∧ buf.HasString offReqChannel c.bytes ∧
      buf.HasString (offReqChannel + CHANNEL_MAX) t.bytes
  | .client .list => buf.reqType = REQ_LIST
  | .client (.who c) => buf.reqType = REQ_WHO ∧ buf.HasString offReqChannel c.bytes
  | .client (.other _) => buf.reqType ∉ reqTypes
  | .s2s (.join c) => buf.reqType = REQ_SERV_JOIN ∧ buf.HasString offReqChannel c.bytes
  | .s2s (.leave c) => buf.reqType = REQ_SERV_LEAVE ∧ buf.HasString offReqChannel c.bytes
  | .s2s (.say m) => buf.reqType = REQ_SERV_SAY ∧ slice buf.bytes 0 sizeofRequestSayS2S = m.bytes ∧
      buf.sayId = m.id ∧ buf.HasString offSayUsername m.reqUsername.bytes ∧
      buf.HasString offSayChannel m.reqChannel.bytes ∧ buf.HasString offSayText m.reqText.bytes

section Handle

variable {mem : Heap} {s : ServerState} {a : Sockaddr} {buf : ReceiveLine} {drawn : Id} {now : ℤ}
  {off n : ℕ} {str : List UInt8}

theorem string_of_hasString (h : buf.HasString off str) : string buf off = pure str := by
  rw [string, if_pos h.1, h.2]
  rfl

theorem readField_of_hasString {str : CStr n} (h : buf.HasString off str.bytes) :
    readField n buf off = pure str := by
  rw [readField, string_of_hasString h, wire_pure_bind, copyTo_bytes]
  rfl

theorem serveLeave_eq {c : Name} (h : buf.HasString offReqChannel c.bytes) :
    serveLeave mem s a buf = encodeAct mem (reqLeave s a c) := by
  rw [serveLeave, string_of_hasString h, wire_pure_bind, findChannelStr_bytes]
  cases hf : findChannel s.channels c with
  | none =>
    rw [reqLeave, hf, encodeAct_bind, ← sendError_bytes]
    rfl
  | some chnl =>
    show encodeAct mem (reqLeave s a chnl.chnlName) = _
    rw [(findChannel_some hf).2]

theorem serveSay_eq {c : Name} {t : SayText} (h : buf.HasString offReqChannel c.bytes)
    (ht : buf.HasString (offReqChannel + CHANNEL_MAX) t.bytes) :
    serveSay mem s a buf drawn = encodeAct mem (reqSay s a c t drawn) := by
  rw [serveSay, string_of_hasString h, wire_pure_bind, findChannelStr_bytes]
  cases hf : findChannel s.channels c with
  | none =>
    rw [reqSay, hf, encodeAct_bind, ← sendError_bytes]
    rfl
  | some chnl =>
    simp only
    split
    · next hnone =>
      rw [reqSay, hf]
      simp only [hnone.1, hnone.2]
      rfl
    · rw [readField_of_hasString ht, wire_pure_bind, (findChannel_some hf).2]

theorem serveServJoin_eq {c : Name} (h : buf.HasString offReqChannel c.bytes) :
    serveServJoin mem s a buf now = encodeAct mem (reqServJoin s a c now) := by
  rw [serveServJoin]
  cases hs : findServerAddress s.cnnctSrvrs a with
  | none =>
    rw [reqServJoin, hs]
    rfl
  | some srvr => rw [readField_of_hasString h, wire_pure_bind]

theorem serveServLeave_eq {c : Name} (h : buf.HasString offReqChannel c.bytes) :
    serveServLeave s a buf = encodeAct mem (reqServLeave s a c) := by
  simp only [serveServLeave, reqServLeave, encodeAct_bind, encodeAct_lift, encodeAct_pure,
    string_of_hasString h, wire_pure_bind]
  rfl

/-- On the strings of a packet, the say of a server is handled as in the model. -/
theorem servSay_eq (m : SayS2S) :
    servSay mem s a m.id m.reqUsername.bytes m.reqChannel.bytes m.reqText.bytes m.bytes =
      encodeAct mem (reqServSay s a m) := by
  rw [servSay, reqServSay, encodeAct_bind, encodeAct_lift]
  congr 1
  funext dup
  cases dup with
  | true =>
    simp only [if_pos, copyTo_bytes, liftFault_ok, wire_pure_bind, sendS2S, encodeAct_bind,
      encodeAct_emit, encodeAct_pure]
    rfl
  | false =>
    simp only [Bool.false_eq_true, if_false, encodeAct_bind, encodeAct_lift, findChannelStr_bytes]
    congr 1
    funext ids
    cases hf : findChannel s.channels m.reqChannel with
    | none => rfl
    | some active =>
      simp only [nonNull, liftFault_ok, wire_pure_bind, (findChannel_some hf).2]
      split
      · rfl
      · simp only [copyTo_bytes, liftFault_ok, wire_pure_bind, encodeAct_bind, encodeAct_emitAll,
          encodeAct_pure, forwardPackets, forwardAddrs, List.map_map]
        rfl

/-- The branch of a code. -/
theorem serve_login (h : buf.reqType = REQ_LOGIN) :
    serve mem s a buf drawn now = serveLogin mem s a buf := by
  rw [serve, h]
  rfl

theorem serve_say (h : buf.reqType = REQ_SAY) :
    serve mem s a buf drawn now = serveSay mem s a buf drawn := by
  rw [serve, h]
  rfl

theorem serve_join (h : buf.reqType = REQ_JOIN) :
    serve mem s a buf drawn now = serveJoin mem s a buf now := by
  rw [serve, h]
  rfl

theorem serve_list (h : buf.reqType = REQ_LIST) :
    serve mem s a buf drawn now = encodeAct mem (reqList s a) := by
  rw [serve, h]
  rfl

theorem serve_who (h : buf.reqType = REQ_WHO) :
    serve mem s a buf drawn now = serveWho mem s a buf := by
  rw [serve, h]
  rfl

theorem serve_leave (h : buf.reqType = REQ_LEAVE) :
    serve mem s a buf drawn now = serveLeave mem s a buf := by
  rw [serve, h]
  rfl

theorem serve_logout (h : buf.reqType = REQ_LOGOUT) :
    serve mem s a buf drawn now = encodeAct mem (reqLogout s a) := by
  rw [serve, h]
  rfl

theorem serve_servJoin (h : buf.reqType = REQ_SERV_JOIN) :
    serve mem s a buf drawn now = serveServJoin mem s a buf now := by
  rw [serve, h]
  rfl

theorem serve_servLeave (h : buf.reqType = REQ_SERV_LEAVE) :
    serve mem s a buf drawn now = serveServLeave s a buf := by
  rw [serve, h]
  rfl

theorem serve_servSay (h : buf.reqType = REQ_SERV_SAY) :
    serve mem s a buf drawn now = serveServSay mem s a buf := by
  rw [serve, h]
  rfl

theorem serve_other (h : buf.reqType ∉ reqTypes) : serve mem s a buf drawn now = pure s := by
  simp only [reqTypes, List.mem_cons, List.not_mem_nil, or_false, not_or] at h
  simp only [serve, h, if_false]

/-- **On a buffer that holds a request, the bytes are handled as in the model**, whatever stands
behind it and whatever `malloc` returns. -/
theorem serve_eq_handle {rq : Request} (h : buf.Holds rq) :
    serve mem s a buf drawn now = encodeAct mem (handle s a rq drawn now) := by
  rcases rq with rq | m
  · cases rq with
    | login u =>
      rw [serve_login h.1, serveLogin, readField_of_hasString h.2, wire_pure_bind]
      rfl
    | logout => exact serve_logout h
    | join c =>
      rw [serve_join h.1, serveJoin, readField_of_hasString h.2, wire_pure_bind]
      rfl
    | leave c => exact (serve_leave h.1).trans (serveLeave_eq h.2)
    | say c t => exact (serve_say h.1).trans (serveSay_eq h.2.1 h.2.2)
    | list => exact serve_list h
    | who c =>
      rw [serve_who h.1, serveWho, readField_of_hasString h.2, wire_pure_bind]
      rfl
    | other k => exact serve_other h
  · cases m with
    | join c => exact (serve_servJoin h.1).trans (serveServJoin_eq h.2)
    | leave c => exact (serve_servLeave h.1).trans (serveServLeave_eq h.2)
    | say m =>
      obtain ⟨ht, hraw, hid, hu, hc, htext⟩ := h
      rw [serve_servSay ht, serveServSay, string_of_hasString hu, wire_pure_bind,
        string_of_hasString hc, wire_pure_bind, string_of_hasString htext, wire_pure_bind, hraw,
        hid, servSay_eq]
      rfl

/-! ### Packets of servers -/

/-- A field that ends: what stands behind it does not matter. -/
theorem cstring_of_field {bytes : List UInt8} {str : CStr n}
    (h : field n bytes off = some str) :
    0 ∈ bytes.drop off ∧ cstring (bytes.drop off) = str.bytes := by
  rw [field] at h
  split at h
  · next h0 =>
    rw [Option.some.injEq] at h
    have hbytes : cstring (slice bytes off n) = str.bytes := congrArg CStr.bytes h
    have hsplit : bytes.drop off = slice bytes off n ++ (bytes.drop off).drop n :=
      (List.take_append_drop n _).symm
    refine ⟨by rw [hsplit]; exact List.mem_append_left _ h0, ?_⟩
    rw [hsplit, cstring_append_of_mem h0, hbytes]
  · cases h

/-- A field that ends is the string at its offset. -/
theorem hasString_of_field {str : CStr n} (h : field n buf.bytes off = some str) :
    buf.HasString off str.bytes := cstring_of_field h

/-- **A packet of another server** is handled as in the model. -/
theorem serve_bytes (m : S2S) {rest : List UInt8} (h : buf.bytes = m.bytes ++ rest) :
    serve mem s a buf drawn now = encodeAct mem (handle s a (.s2s m) drawn now) := by
  refine serve_eq_handle ?_
  cases m with
  | join c =>
    obtain ⟨htype, hc⟩ := read_fillRequest REQ_SERV_JOIN (by decide) c rest
    rw [show fillRequest REQ_SERV_JOIN c ++ rest = buf.bytes from h.symm] at htype hc
    exact ⟨htype, hasString_of_field hc⟩
  | leave c =>
    obtain ⟨htype, hc⟩ := read_fillRequest REQ_SERV_LEAVE (by decide) c rest
    rw [show fillRequest REQ_SERV_LEAVE c ++ rest = buf.bytes from h.symm] at htype hc
    exact ⟨htype, hasString_of_field hc⟩
  | say m =>
    have h : buf.bytes = m.bytes ++ rest := h
    have hs : ∀ off n, off + n ≤ sizeofRequestSayS2S →
        slice buf.bytes off n = slice m.bytes off n := by
      intro off n hle
      rw [h, slice_append_left rest (by rwa [SayS2S.length_bytes])]
    refine ⟨?_, ?_, ?_, ?_, ?_, ?_⟩
    · rw [ReceiveLine.reqType, hs 0 sizeofInt (by decide), SayS2S.reqType_bytes]
    · rw [hs 0 sizeofRequestSayS2S (by decide), slice, List.drop_zero,
        List.take_of_length_le (Nat.le_of_eq (SayS2S.length_bytes m))]
    · rw [ReceiveLine.sayId, hs offSayId sizeofLong (by decide), SayS2S.id_bytes]
    · refine hasString_of_field (n := USERNAME_MAX) ?_
      rw [field_congr (hs offSayUsername USERNAME_MAX (by decide)), SayS2S.username_bytes]
    · refine hasString_of_field (n := CHANNEL_MAX) ?_
      rw [field_congr (hs offSayChannel CHANNEL_MAX (by decide)), SayS2S.channel_bytes]
    · refine hasString_of_field (n := SAY_MAX) ?_
      rw [field_congr (hs offSayText SAY_MAX (by decide)), SayS2S.text_bytes]

end Handle

end DuckChat
