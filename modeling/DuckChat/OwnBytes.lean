import DuckChat.Blocks
import DuckChat.Sound
import DuckChat.Window

/-!
# What a datagram is handled from

Two runs of a server that receive the same bytes in the same state may differ in what they send: the
buffer is not cleared, what was received is not measured, and a block from `malloc` is sent as it is
where nothing was written. Here it is said for every datagram and every state when they do not
differ.

## Main definitions

* `OwnBytes` — the bytes behind the datagram, and those of fresh blocks, do not matter
* `Received.Ends`, `Forwards`, `Whole` — what must have been received for that

## Main results

* `same_string_iff` — a string is read from the datagram alone if it ends there
* `servSay_cases` — the say of a server shows its bytes as they stand only where it is passed on
* `ownBytes_iff_whole` — every datagram, in every state
-/

set_option autoImplicit false

namespace DuckChat

/-- **A request is handled from its own bytes.** Whatever the buffer held before, and whatever
`malloc` returns, the same bytes are sent and the same tables result. -/
def OwnBytes (s : ServerState) (a : Sockaddr) (drawn : Id) (now : ℤ) (d : Received) : Prop :=
  ∀ (mem mem' : Heap) (buf buf' : ReceiveLine),
    serve mem s a (socketRecv buf d) drawn now = serve mem' s a (socketRecv buf' d) drawn now

/-! ### What was received -/

namespace Received

variable (d : Received)

/-- The string at an offset ends in what was received, or there is nothing behind that. -/
def Ends (off : ℕ) : Prop := 0 ∈ d.bytes.drop off ∨ d.bytes.length = BUFSIZ

/-- The string at an offset. -/
def str (off : ℕ) : List UInt8 := cstring (d.bytes.drop off)

def reqType : ℕ := ofLeBytes (slice d.bytes 0 sizeofInt)

def sayId : Id := UInt64.ofNat (ofLeBytes (slice d.bytes offSayId sizeofLong))

end Received

/-- The text of a say is read: the channel is there, and it has users or the speaker is one. -/
def ReadsText (s : ServerState) (a : Sockaddr) (reqChannel : List UInt8) : Prop :=
  ∃ chnl ∈ findChannelStr s.channels reqChannel,
    ¬ (chnl.entries = [] ∧ findUser s.allUsers a = none)

/-- The say of a server is passed on: it is new, the channel is there and wanted, the user name and
the text fit, the users of the channel can be read, and there is a neighbour to pass it to. -/
def Forwards (s : ServerState) (a : Sockaddr) (id : Id)
    (reqUsername reqChannel reqText : List UInt8) : Prop :=
  hasId s.recentIds id = .ok false ∧ s.recentIds.numIds ≠ INT_MAX ∧
    reqUsername.length < USERNAME_MAX ∧ reqText.length < SAY_MAX ∧
    ∃ active ∈ findChannelStr s.channels reqChannel,
      ¬ (active.numUsers = 0 ∧ hasChannelServers s.cnnctSrvrs active.chnlName ≤ 1) ∧
        (∀ e ∈ active.entries, Readable s.heap e) ∧ forwardAddrs s a active.chnlName ≠ []

/-- Everything that is read has been received. Of a code that is cut short no completion may be
known; a list may hold no name that is shorter than its slot. -/
def Whole (s : ServerState) (a : Sockaddr) (d : Received) : Prop :=
  if d.bytes.length < sizeofInt then ∀ k ∈ reqTypes, ¬ d.bytes <+: leBytes sizeofInt k
  else if d.reqType ∈ [REQ_LOGIN, REQ_JOIN, REQ_WHO, REQ_LEAVE] then d.Ends offReqChannel
  else if d.reqType = REQ_SAY then
    d.Ends offReqChannel ∧
      (ReadsText s a (d.str offReqChannel) → d.Ends (offReqChannel + CHANNEL_MAX))
  else if d.reqType = REQ_LIST then ∀ c ∈ s.names, c.bytes.length + 1 = CHANNEL_MAX
  else if d.reqType = REQ_SERV_JOIN then
    (findServerAddress s.cnnctSrvrs a).isSome → d.Ends offReqChannel
  else if d.reqType = REQ_SERV_LEAVE then
    (∃ srv ∈ findServerAddress s.cnnctSrvrs a, 0 ≤ srv.numChnnls) → d.Ends offReqChannel
  else if d.reqType = REQ_SERV_SAY then
    d.Ends offSayText ∧
      (Forwards s a d.sayId (d.str offSayUsername) (d.str offSayChannel) (d.str offSayText) →
        sizeofRequestSayS2S ≤ d.bytes.length)
  else True

/-! ### The buffer -/

/-- A buffer that holds one byte throughout. -/
def ReceiveLine.fill (b : UInt8) : ReceiveLine := ⟨List.replicate BUFSIZ b, List.length_replicate⟩

section Buffers

variable {α β : Type} {d : Received} {buf buf' : ReceiveLine} {off n : ℕ}

theorem bytes_socketRecv (buf : ReceiveLine) (d : Received) :
    (socketRecv buf d).bytes = d.bytes ++ buf.bytes.drop d.bytes.length :=
  put_zero (by rw [buf.size]; exact d.fits)

theorem ReceiveLine.ext (h : buf.bytes = buf'.bytes) : buf = buf' := by
  cases buf
  cases buf'
  simp_all

/-- A datagram as long as the buffer leaves nothing behind it. -/
theorem socketRecv_full (h : d.bytes.length = BUFSIZ) (buf buf' : ReceiveLine) :
    socketRecv buf d = socketRecv buf' d := by
  refine ReceiveLine.ext ?_
  rw [bytes_socketRecv, bytes_socketRecv, h, ← buf.size, List.drop_length, buf.size, ← buf'.size,
    List.drop_length]

/-- What lies within the datagram is read from it. -/
theorem slice_socketRecv (h : off + n ≤ d.bytes.length) :
    slice (socketRecv buf d).bytes off n = slice d.bytes off n := by
  rw [bytes_socketRecv, slice_append_left _ h]

/-- The effect of a read behind the end of the buffer. -/
def overread : Wire α := ⟨[], .error .overread⟩

@[simp] theorem overread_bind (k : α → Wire β) : ((overread : Wire α) >>= k) = overread := rfl

/-- A string that ends within the datagram is what stands there. -/
theorem hasString_of_mem (h : 0 ∈ d.bytes.drop off) (buf : ReceiveLine) :
    (socketRecv buf d).HasString off (d.str off) := by
  have hlt : off < d.bytes.length := by
    rw [← Nat.sub_pos_iff_lt, ← List.length_drop]
    exact List.length_pos_of_mem h
  have hdrop : (socketRecv buf d).bytes.drop off =
      d.bytes.drop off ++ buf.bytes.drop d.bytes.length := by
    rw [bytes_socketRecv, List.drop_append, Nat.sub_eq_zero_of_le (Nat.le_of_lt hlt),
      List.drop_zero]
  exact ⟨by rw [hdrop]; exact List.mem_append_left _ h,
    by rw [hdrop, cstring_append_of_mem h]; rfl⟩

theorem string_of_mem (h : 0 ∈ d.bytes.drop off) (buf : ReceiveLine) :
    string (socketRecv buf d) off = pure (d.str off) :=
  string_of_hasString (hasString_of_mem h buf)

theorem string_of_not_mem (h : 0 ∉ buf.bytes.drop off) : string buf off = overread := by
  rw [string, if_neg h]
  rfl

/-- **A string that ends in the datagram** is the same in every buffer, or there is none in any. -/
theorem string_cases (h : d.Ends off) :
    (∀ buf, string (socketRecv buf d) off = pure (d.str off)) ∨
      ∀ buf, string (socketRecv buf d) off = overread := by
  by_cases hmem : 0 ∈ d.bytes.drop off
  · exact Or.inl (string_of_mem hmem)
  · refine Or.inr fun buf => string_of_not_mem ?_
    have hfull := h.resolve_left hmem
    rwa [bytes_socketRecv, hfull, ← buf.size, List.drop_length, List.append_nil]

/-- Behind a datagram that does not end it, a string may find no end in the buffer. -/
theorem string_fill_255 (h : ¬ d.Ends off) :
    string (socketRecv (.fill 255) d) off = overread := by
  refine string_of_not_mem fun hmem => ?_
  rw [bytes_socketRecv, List.drop_append] at hmem
  rcases List.mem_append.mp hmem with hmem | hmem
  · exact h (Or.inl hmem)
  · have hfill := List.mem_of_mem_drop (List.mem_of_mem_drop hmem)
    exact absurd (List.eq_of_mem_replicate hfill) (by decide)

/-- And it may find one. -/
theorem zero_mem_fill_0 (h : d.bytes.length < BUFSIZ) (hoff : off < BUFSIZ) :
    0 ∈ (socketRecv (.fill 0) d).bytes.drop off := by
  have hlast : (socketRecv (.fill 0) d).bytes[BUFSIZ - 1]? = some 0 := by
    rw [bytes_socketRecv, List.getElem?_append_right (by omega), List.getElem?_drop,
      ReceiveLine.fill, List.getElem?_replicate, if_pos (by omega)]
  refine List.mem_of_getElem? (i := BUFSIZ - 1 - off) ?_
  rw [List.getElem?_drop, Nat.add_sub_cancel' (by omega), hlast]

/-- A buffer that ends every string. -/
def ReceiveLine.Closed (buf : ReceiveLine) : Prop := 0 ∈ buf.bytes.drop offSayText

theorem mem_drop_of_le {bs : List UInt8} {b : UInt8} {i j : ℕ} (h : b ∈ bs.drop j) (hij : i ≤ j) :
    b ∈ bs.drop i := by
  rw [← Nat.add_sub_cancel' hij, ← List.drop_drop] at h
  exact List.mem_of_mem_drop h

theorem ReceiveLine.Closed.string_eq (h : buf.Closed) (hoff : off ≤ offSayText) :
    ∃ str, string buf off = pure str :=
  ⟨_, string_of_hasString ⟨mem_drop_of_le h hoff, rfl⟩⟩

end Buffers

/-! ### Reads that stay in the buffer -/

/-- No string is read behind the end of the buffer. -/
def InBuffer {α : Type} (x : Wire α) : Prop := x.Post (fun _ => True) (· ≠ .overread)

section InBuffer

variable {α β : Type} {mem : Heap} {s : ServerState} {a : Sockaddr} {buf : ReceiveLine} {off n : ℕ}
  {drawn : Id} {now : ℤ}

theorem InBuffer.bind {x : Wire α} {k : α → Wire β} (hx : InBuffer x) (hk : ∀ v, InBuffer (k v)) :
    InBuffer (x >>= k) :=
  Emit.Post.bind (Emit.Post.mono hx fun v _ => hk v)

theorem inBuffer_pure (v : α) : InBuffer (pure v) := trivial

theorem inBuffer_emit (w : Sockaddr × List UInt8) : InBuffer (Emit.emit w) := trivial

theorem inBuffer_emitAll (ws : List (Sockaddr × List UInt8)) : InBuffer (Emit.emitAll ws) := trivial

theorem inBuffer_liftFault (r : Except Fault α) : InBuffer (liftFault r) := by
  cases r with
  | error f => exact Stop.noConfusion
  | ok v => exact trivial

theorem inBuffer_encodeAct (x : Act α) : InBuffer (encodeAct mem x) := by
  obtain ⟨o, f | v⟩ := x
  · exact Stop.noConfusion
  · exact trivial

theorem inBuffer_sendError (str : List UInt8) : InBuffer (sendError a str) := by
  rw [sendError]
  split
  · exact inBuffer_emit _
  · exact inBuffer_liftFault _

theorem not_inBuffer_overread : ¬ InBuffer (overread : Wire α) := fun h => h rfl

theorem inBuffer_string (h : buf.Closed) (hoff : off ≤ offSayText) :
    InBuffer (string buf off) := by
  obtain ⟨str, hstr⟩ := h.string_eq hoff
  rw [hstr]
  exact inBuffer_pure str

theorem inBuffer_servSay (id : Id) (u c t sss : List UInt8) :
    InBuffer (servSay mem s a id u c t sss) := by
  refine (inBuffer_liftFault _).bind fun dup => ?_
  split
  · exact (inBuffer_liftFault _).bind fun _ => (inBuffer_emit _).bind fun _ => inBuffer_pure _
  · refine (inBuffer_liftFault _).bind fun ids => (inBuffer_liftFault _).bind fun active => ?_
    dsimp only
    split
    · exact (inBuffer_emit _).bind fun _ => inBuffer_pure _
    · refine (inBuffer_liftFault _).bind fun _ => (inBuffer_liftFault _).bind fun _ => ?_
      exact (inBuffer_encodeAct _).bind fun _ => (inBuffer_emitAll _).bind fun _ => inBuffer_pure _

end InBuffer

/-! ### Strings and the datagram -/

/-- The buffer makes no difference behind a datagram. -/
def Same {α : Type} (f : ReceiveLine → Wire α) (d : Received) : Prop :=
  ∀ buf buf', f (socketRecv buf d) = f (socketRecv buf' d)

section Same

variable {α : Type} {d : Received} {off n : ℕ}

/-- What stops in every buffer in which a string does not end, and in no other, needs the string. -/
theorem ends_of_same {f : ReceiveLine → Wire α}
    (hover : ∀ buf, string buf off = overread → f buf = overread)
    (hin : ∀ buf : ReceiveLine, buf.Closed → InBuffer (f buf)) (h : Same f d) : d.Ends off := by
  by_contra hno
  have hlt : d.bytes.length < BUFSIZ := Nat.lt_of_le_of_ne d.fits fun heq => hno (Or.inr heq)
  have h₁ := hover _ (string_fill_255 hno)
  have h₂ := hin _ (zero_mem_fill_0 hlt (by decide))
  rw [← h (.fill 255) (.fill 0), h₁] at h₂
  exact not_inBuffer_overread h₂

/-- **A string, and what is made of it**, comes from the datagram exactly if the string ends
there. -/
theorem same_string_iff {k : List UInt8 → Wire α} (hoff : off ≤ offSayText)
    (hk : ∀ str, InBuffer (k str)) : Same (fun buf => string buf off >>= k) d ↔ d.Ends off := by
  constructor
  · refine ends_of_same (fun buf hbuf => by rw [hbuf, overread_bind]) fun buf hbuf => ?_
    exact (inBuffer_string hbuf hoff).bind hk
  · intro h buf buf'
    rcases string_cases h with hs | hs
    · simp only [hs]
    · simp only [hs]

/-- A string that is copied to a field. -/
theorem same_readField_iff {k : CStr n → Wire α} (hoff : off ≤ offSayText)
    (hk : ∀ str, InBuffer (k str)) :
    Same (fun buf => readField n buf off >>= k) d ↔ d.Ends off := by
  have hfun : (fun buf => readField n buf off >>= k) =
      fun buf => string buf off >>= fun str => liftFault (copyTo n str) >>= k := by
    funext buf
    exact Emit.bind_assoc _ _ _
  rw [hfun]
  exact same_string_iff hoff fun str => (inBuffer_liftFault _).bind hk

end Same

section Branches

variable {mem : Heap} {s : ServerState} {a : Sockaddr} {d : Received} {drawn : Id} {now : ℤ}

theorem same_serveLogin_iff : Same (serveLogin mem s a) d ↔ d.Ends offReqChannel :=
  same_readField_iff (by decide) fun _ => inBuffer_encodeAct _

theorem same_serveJoin_iff :
    Same (fun buf => serveJoin mem s a buf now) d ↔ d.Ends offReqChannel :=
  same_readField_iff (by decide) fun _ => inBuffer_encodeAct _

theorem same_serveWho_iff : Same (serveWho mem s a) d ↔ d.Ends offReqChannel :=
  same_readField_iff (by decide) fun _ => inBuffer_encodeAct _

theorem same_serveLeave_iff : Same (serveLeave mem s a) d ↔ d.Ends offReqChannel := by
  refine same_string_iff (by decide) fun str => ?_
  split
  · exact (inBuffer_sendError _).bind fun _ => inBuffer_pure _
  · exact inBuffer_encodeAct _

theorem same_serveServJoin_iff :
    Same (fun buf => serveServJoin mem s a buf now) d ↔
      ((findServerAddress s.cnnctSrvrs a).isSome → d.Ends offReqChannel) := by
  simp only [serveServJoin]
  cases hs : findServerAddress s.cnnctSrvrs a with
  | none => simp [Same]
  | some srvr =>
    simp only [Option.isSome_some, true_imp_iff]
    exact same_readField_iff (by decide) fun _ => inBuffer_encodeAct _

/-- The three courses of `case REQ_SERV_LEAVE`. -/
theorem serveServLeave_stranger {buf : ReceiveLine} (hs : findServerAddress s.cnnctSrvrs a = none) :
    serveServLeave s a buf = liftFault (.error .null) := by
  rw [serveServLeave, hs]
  rfl

theorem serveServLeave_below {buf : ReceiveLine} {srv : Server}
    (hs : findServerAddress s.cnnctSrvrs a = some srv) (h : srv.numChnnls < 0) :
    serveServLeave s a buf = liftFault (.error .size) := by
  rw [serveServLeave, hs, nonNull, liftFault_ok, wire_pure_bind, removeAdjChannel_eq_error h,
    liftFault_error_bind]

theorem serveServLeave_read {buf : ReceiveLine} {srv : Server}
    (hs : findServerAddress s.cnnctSrvrs a = some srv) (h : 0 ≤ srv.numChnnls) :
    serveServLeave s a buf = string buf offReqChannel >>= fun _ => pure { s with
      cnnctSrvrs := storeServer s.cnnctSrvrs a (srv.setNumChnnls (srv.numChnnls - 1)) } := by
  rw [serveServLeave, hs, nonNull, liftFault_ok, wire_pure_bind, removeAdjChannel_eq_ok h,
    liftFault_ok, wire_pure_bind]

theorem same_serveServLeave_iff :
    Same (serveServLeave s a) d ↔
      ((∃ srv ∈ findServerAddress s.cnnctSrvrs a, 0 ≤ srv.numChnnls) → d.Ends offReqChannel) := by
  cases hs : findServerAddress s.cnnctSrvrs a with
  | none => simp [Same, serveServLeave_stranger hs]
  | some srv =>
    by_cases h0 : 0 ≤ srv.numChnnls
    · rw [show serveServLeave s a = _ from funext fun _ => serveServLeave_read hs h0,
        same_string_iff (by decide) fun _ => inBuffer_pure _]
      simp [h0]
    · simp [Same, h0, serveServLeave_below hs (Int.not_le.mp h0)]

theorem inBuffer_readField {α : Type} {n off : ℕ} {buf : ReceiveLine} {k : CStr n → Wire α}
    (h : buf.Closed) (hoff : off ≤ offSayText) (hk : ∀ str, InBuffer (k str)) :
    InBuffer (readField n buf off >>= k) :=
  InBuffer.bind ((inBuffer_string h hoff).bind fun _ => inBuffer_liftFault _) hk

theorem inBuffer_serveSay {buf : ReceiveLine} (h : buf.Closed) :
    InBuffer (serveSay mem s a buf drawn) := by
  refine (inBuffer_string h (by decide)).bind fun str => ?_
  split
  · exact (inBuffer_sendError _).bind fun _ => inBuffer_liftFault _
  · split
    · exact inBuffer_liftFault _
    · exact inBuffer_readField h (by decide) fun _ => inBuffer_encodeAct _

/-- **The say of a client**: the name always, the text where it is read. -/
theorem same_serveSay_iff :
    Same (fun buf => serveSay mem s a buf drawn) d ↔
      d.Ends offReqChannel ∧
        (ReadsText s a (d.str offReqChannel) → d.Ends (offReqChannel + CHANNEL_MAX)) := by
  have htext : ∀ c : Name, Same (fun buf => readField SAY_MAX buf (offReqChannel + CHANNEL_MAX) >>=
      fun t => encodeAct mem (reqSay s a c t drawn)) d ↔ d.Ends (offReqChannel + CHANNEL_MAX) :=
    fun c => same_readField_iff (by decide) fun _ => inBuffer_encodeAct _
  constructor
  · intro h
    have hname : d.Ends offReqChannel := ends_of_same
      (fun buf hbuf => by rw [serveSay, hbuf, overread_bind]) (fun _ => inBuffer_serveSay) h
    refine ⟨hname, ?_⟩
    rintro ⟨chnl, hf, hread⟩
    rcases hname with hmem | hfull
    · refine (htext chnl.chnlName).mp fun buf buf' => ?_
      simpa only [serveSay, string_of_mem hmem, wire_pure_bind, Option.mem_def.mp hf, if_neg hread]
        using h buf buf'
    · exact Or.inr hfull
  · rintro ⟨hname, hends⟩ buf buf'
    rcases string_cases hname with hs | hs
    · simp only [serveSay, hs, wire_pure_bind]
      cases hf : findChannelStr s.channels (d.str offReqChannel) with
      | none => rfl
      | some chnl =>
        by_cases hread : chnl.entries = [] ∧ findUser s.allUsers a = none
        · simp only [if_pos hread]
        · simp only [if_neg hread]
          exact (htext chnl.chnlName).mpr (hends ⟨chnl, hf, hread⟩) buf buf'
    · simp only [serveSay, hs, overread_bind]

end Branches

/-! ### The say of a server -/

section ServSay

variable {mem : Heap} {s : ServerState} {a : Sockaddr} {d : Received} {id : Id}
  {u c t sss sss' : List UInt8}

theorem copyTo_eq_ok {n : ℕ} {str : List UInt8} (h0 : 0 ∉ str) (hlt : str.length < n) :
    copyTo n str = .ok ⟨str, h0, hlt⟩ := by
  rw [copyTo, dif_pos ⟨h0, hlt⟩]

theorem copyTo_eq_error {n : ℕ} {str : List UInt8} (h : ¬ str.length < n) :
    copyTo n str = .error (.store .above) := by
  rw [copyTo, dif_neg fun hc => h hc.2]

/-- A delivery that ends well has read every entry. -/
theorem readable_of_deliverLoop {heap : List User} {ts : Text} {es : List (Option User)}
    (h : (deliverLoop heap ts es).result = .ok ()) : ∀ e ∈ es, Readable heap e := by
  induction es with
  | nil => exact fun e he => absurd he List.not_mem_nil
  | cons e es ih =>
    rw [deliverLoop] at h
    obtain ⟨usr, hu, hsent⟩ := Emit.bind_eq_ok_iff.mp h
    obtain ⟨_, -, hes⟩ := Emit.bind_eq_ok_iff.mp hsent
    obtain ⟨he, hm⟩ := deref_eq_ok_iff.mp hu
    exact List.forall_mem_cons.mpr ⟨⟨usr, hm, he⟩, ih hes⟩

/-- The say of a server whose identifier is in the window. -/
theorem servSay_dup (hd : hasId s.recentIds id = .ok true) :
    servSay mem s a id u c t sss = liftFault (copyTo CHANNEL_MAX c) >>= fun c =>
      ⟨[(a, (S2S.leave c).bytes)], .ok s⟩ := by
  rw [servSay, hd]
  rfl

/-- The say of a server whose identifier is new and whose channel is known. -/
theorem servSay_found {ids : RecentIds} {active : Channel} (hd : hasId s.recentIds id = .ok false)
    (hr : s.recentIds.record id = .ok ids) (hf : findChannelStr s.channels c = some active) :
    servSay mem s a id u c t sss =
      if active.numUsers = 0 ∧ hasChannelServers s.cnnctSrvrs active.chnlName ≤ 1 then
        ⟨[(a, (S2S.leave active.chnlName).bytes)], .ok { s with recentIds := ids }⟩
      else liftFault (copyTo USERNAME_MAX u) >>= fun u => liftFault (copyTo SAY_MAX t) >>= fun t =>
        encodeAct mem (deliverLoop s.heap (fillTextSay active.chnlName u t) active.entries) >>=
          fun _ => ⟨(forwardAddrs s a active.chnlName).map fun b => (b, sss),
            .ok { s with recentIds := ids }⟩ := by
  simp only [servSay, hd, hr, hf, liftFault_ok, nonNull, Emit.emitAll_bind, Emit.emit_bind,
    Emit.pure_eq, List.append_nil]
  rfl

theorem forwards_iff {active : Channel} (hd : hasId s.recentIds id = .ok false)
    (hmax : s.recentIds.numIds ≠ INT_MAX) (hf : findChannelStr s.channels c = some active) :
    Forwards s a id u c t ↔ u.length < USERNAME_MAX ∧ t.length < SAY_MAX ∧
      ¬ (active.numUsers = 0 ∧ hasChannelServers s.cnnctSrvrs active.chnlName ≤ 1) ∧
        (∀ e ∈ active.entries, Readable s.heap e) ∧ forwardAddrs s a active.chnlName ≠ [] := by
  simp [Forwards, hd, hmax, hf]

/-- The bytes of a packet as they stand are sent to neighbours, behind what else is sent. -/
def ShowsRaw (f : List UInt8 → Wire ServerState) : Prop :=
  ∃ pre addrs s', addrs ≠ [] ∧ ∀ sss, f sss = ⟨pre ++ addrs.map fun b => (b, sss), .ok s'⟩

/-- Or they make no difference. -/
def IgnoresRaw (f : List UInt8 → Wire ServerState) : Prop := ∃ x, ∀ sss, f sss = x

theorem servSay_found_cases {ids : RecentIds} {active : Channel} (hu : 0 ∉ u) (ht : 0 ∉ t)
    (hd : hasId s.recentIds id = .ok false) (hmax : s.recentIds.numIds ≠ INT_MAX)
    (hr : s.recentIds.record id = .ok ids) (hf : findChannelStr s.channels c = some active) :
    (¬ Forwards s a id u c t ∧ IgnoresRaw (servSay mem s a id u c t)) ∨
      (Forwards s a id u c t ∧ ShowsRaw (servSay mem s a id u c t)) := by
  rw [forwards_iff hd hmax hf]
  have heq : ∀ sss, servSay mem s a id u c t sss = _ := fun sss => servSay_found hd hr hf
  by_cases hprune : active.numUsers = 0 ∧ hasChannelServers s.cnnctSrvrs active.chnlName ≤ 1
  · exact Or.inl ⟨fun h => h.2.2.1 hprune, _, fun sss => (heq sss).trans (if_pos hprune)⟩
  simp only [if_neg hprune] at heq
  by_cases hul : u.length < USERNAME_MAX
  · by_cases htl : t.length < SAY_MAX
    · simp only [copyTo_eq_ok hu hul, copyTo_eq_ok ht htl, liftFault_ok, wire_pure_bind] at heq
      by_cases hread : ∀ e ∈ active.entries, Readable s.heap e
      · simp only [deliverLoop_eq hread] at heq
        by_cases haddrs : forwardAddrs s a active.chnlName = []
        · simp only [haddrs, List.map_nil] at heq
          exact Or.inl ⟨fun h => h.2.2.2.2 haddrs, _, heq⟩
        · exact Or.inr ⟨⟨hul, htl, hprune, hread, haddrs⟩, _, _, _, haddrs, heq⟩
      · -- an entry that cannot be read ends the delivery
        rcases hl : deliverLoop s.heap (fillTextSay active.chnlName ⟨u, hu, hul⟩ ⟨t, ht, htl⟩)
          active.entries with ⟨o, f | ⟨⟩⟩
        · simp only [hl] at heq
          exact Or.inl ⟨fun h => hread h.2.2.2.1, _, heq⟩
        · exact absurd (readable_of_deliverLoop (congrArg Emit.result hl)) hread
    · simp only [copyTo_eq_ok hu hul, copyTo_eq_error htl, liftFault_ok, wire_pure_bind,
        liftFault_error_bind] at heq
      exact Or.inl ⟨fun h => htl h.2.1, _, heq⟩
  · simp only [copyTo_eq_error hul, liftFault_error_bind] at heq
    exact Or.inl ⟨fun h => hul h.1, _, heq⟩

/-- **Passing on is all that shows the bytes as they stand.** -/
theorem servSay_cases (mem : Heap) (s : ServerState) (a : Sockaddr) (id : Id) (c : List UInt8)
    (hu : 0 ∉ u) (ht : 0 ∉ t) :
    (¬ Forwards s a id u c t ∧ IgnoresRaw (servSay mem s a id u c t)) ∨
      (Forwards s a id u c t ∧ ShowsRaw (servSay mem s a id u c t)) := by
  rcases hd : hasId s.recentIds id with f | _ | _
  · refine Or.inl ⟨fun hf => ?_, liftFault (.error f), fun sss => ?_⟩
    · cases hd.symm.trans hf.1
    · rw [servSay, hd, liftFault_error_bind]
  · by_cases hmax : s.recentIds.numIds = INT_MAX
    · refine Or.inl ⟨fun hf => hf.2.1 hmax, liftFault (.error .counter), fun sss => ?_⟩
      have hr : s.recentIds.record id = .error .counter := by rw [RecentIds.record, if_pos hmax]
      simp [servSay, hd, hr]
    · obtain ⟨ids, hr⟩ := RecentIds.exists_record id hmax
      cases hf : findChannelStr s.channels c with
      | none =>
        refine Or.inl ⟨?_, liftFault (.error .null), fun sss => ?_⟩
        · rintro ⟨-, -, -, -, active, hactive, -⟩
          cases hf.symm.trans hactive
        · simp [servSay, hd, hr, hf, nonNull]
      | some active => exact servSay_found_cases hu ht hd hmax hr hf
  · refine Or.inl ⟨fun hf => ?_, _, fun sss => servSay_dup hd⟩
    cases hd.symm.trans hf.1

theorem string_eq_or (buf : ReceiveLine) (off : ℕ) :
    (∃ str, string buf off = pure str) ∨ string buf off = overread := by
  by_cases h : 0 ∈ buf.bytes.drop off
  · exact Or.inl ⟨_, string_of_hasString ⟨h, rfl⟩⟩
  · exact Or.inr (string_of_not_mem h)

theorem serveServSay_overread {buf : ReceiveLine} (h : string buf offSayText = overread) :
    serveServSay mem s a buf = overread := by
  rw [serveServSay]
  rcases string_eq_or buf offSayUsername with ⟨u, hu⟩ | hu
  · rcases string_eq_or buf offSayChannel with ⟨c, hc⟩ | hc
    · rw [hu, wire_pure_bind, hc, wire_pure_bind, h, overread_bind]
    · rw [hu, wire_pure_bind, hc, overread_bind]
  · rw [hu, overread_bind]

theorem inBuffer_serveServSay {buf : ReceiveLine} (h : buf.Closed) :
    InBuffer (serveServSay mem s a buf) :=
  (inBuffer_string h (by decide)).bind fun _ => (inBuffer_string h (by decide)).bind fun _ =>
    (inBuffer_string h (by decide)).bind fun _ => inBuffer_servSay _ _ _ _ _

/-- The strings and the identifier of a packet that ends its text. -/
theorem serveServSay_of_mem (h : 0 ∈ d.bytes.drop offSayText) (buf : ReceiveLine) :
    serveServSay mem s a (socketRecv buf d) =
      servSay mem s a d.sayId (d.str offSayUsername) (d.str offSayChannel) (d.str offSayText)
        (slice (socketRecv buf d).bytes 0 sizeofRequestSayS2S) := by
  have hlen : offSayText < d.bytes.length := by
    rw [← Nat.sub_pos_iff_lt, ← List.length_drop]
    exact List.length_pos_of_mem h
  have hid : offSayId + sizeofLong ≤ d.bytes.length :=
    Nat.le_trans (show offSayId + sizeofLong ≤ offSayText by decide) (Nat.le_of_lt hlen)
  rw [serveServSay, string_of_mem (mem_drop_of_le h (by decide)), wire_pure_bind,
    string_of_mem (mem_drop_of_le h (by decide)), wire_pure_bind, string_of_mem h, wire_pure_bind,
    ReceiveLine.sayId, slice_socketRecv hid]
  rfl

/-- Two buffers show behind a datagram what they held there. -/
theorem slice_fill_ne {off n : ℕ} (hlt : d.bytes.length < off + n) (hoff : off ≤ d.bytes.length)
    (hn : off + n ≤ BUFSIZ) :
    slice (socketRecv (.fill 0) d).bytes off n ≠ slice (socketRecv (.fill 255) d).bytes off n := by
  have hbyte : ∀ b : UInt8, (slice (socketRecv (.fill b) d).bytes off n)[d.bytes.length - off]? =
      some b := by
    intro b
    rw [getElem?_slice, if_pos (by omega), Nat.add_sub_cancel' hoff, bytes_socketRecv,
      List.getElem?_append_right (Nat.le_refl _), List.getElem?_drop, ReceiveLine.fill,
      List.getElem?_replicate, if_pos (by omega)]
  intro heq
  have h0 := hbyte 0
  rw [heq, hbyte 255] at h0
  cases h0

/-- **The say of a server**: its strings always, and the whole structure where it is passed on. -/
theorem same_serveServSay_iff :
    Same (serveServSay mem s a) d ↔ d.Ends offSayText ∧
      (Forwards s a d.sayId (d.str offSayUsername) (d.str offSayChannel) (d.str offSayText) →
        sizeofRequestSayS2S ≤ d.bytes.length) := by
  have hcases := servSay_cases mem s a d.sayId (d.str offSayChannel)
    (noNul_cstring (d.bytes.drop offSayUsername)) (noNul_cstring (d.bytes.drop offSayText))
  constructor
  · intro h
    have hends : d.Ends offSayText :=
      ends_of_same (fun _ => serveServSay_overread) (fun _ => inBuffer_serveServSay) h
    refine ⟨hends, fun hfwd => ?_⟩
    rcases hends with hmem | hfull
    · by_contra hlt
      rcases hcases with ⟨hno, -⟩ | ⟨-, pre, addrs, s', hne, heq⟩
      · exact hno hfwd
      · obtain ⟨b, bs, rfl⟩ := List.exists_cons_of_ne_nil hne
        have hsame := h (.fill 0) (.fill 255)
        rw [serveServSay_of_mem hmem, serveServSay_of_mem hmem] at hsame
        have hout := congrArg Emit.out (((heq _).symm.trans hsame).trans (heq _))
        simp only [List.map_cons, List.append_cancel_left_eq, List.cons.injEq, Prod.mk.injEq,
          true_and] at hout
        exact slice_fill_ne (by omega) (Nat.zero_le _) (by decide) hout.1
    · rw [hfull]
      decide
  · rintro ⟨hmem | hfull, hlen⟩ buf buf'
    · rw [serveServSay_of_mem hmem, serveServSay_of_mem hmem]
      rcases hcases with ⟨-, x, hx⟩ | ⟨hfwd, -⟩
      · exact (hx _).trans (hx _).symm
      · rw [slice_socketRecv (Nat.zero_add _ ▸ hlen hfwd),
          slice_socketRecv (Nat.zero_add _ ▸ hlen hfwd)]
    · rw [socketRecv_full hfull buf buf']

end ServSay

/-! ### Codes that are cut short -/

section Codes

variable {mem : Heap} {s : ServerState} {a : Sockaddr} {d : Received} {drawn : Id} {now : ℤ} {k : ℕ}

/-- A buffer with a code at its start and no terminator behind it. -/
def ReceiveLine.ofCode (k : ℕ) : ReceiveLine :=
  ⟨leBytes sizeofInt k ++ List.replicate (BUFSIZ - sizeofInt) 255, by
    rw [List.length_append, length_leBytes, List.length_replicate]; rfl⟩

/-- What is received and stands in the buffer already changes nothing. -/
theorem socketRecv_of_prefix {buf : ReceiveLine} (h : d.bytes <+: buf.bytes) :
    socketRecv buf d = buf := by
  refine ReceiveLine.ext ?_
  obtain ⟨rest, hrest⟩ := h
  rw [bytes_socketRecv, ← hrest, List.drop_left]

theorem reqType_ofCode (hk : k < 256 ^ sizeofInt) : (ReceiveLine.ofCode k).reqType = k := by
  have hslice : slice (ReceiveLine.ofCode k).bytes 0 sizeofInt = leBytes sizeofInt k :=
    List.take_left' (length_leBytes _ _)
  rw [ReceiveLine.reqType, hslice, ofLeBytes_leBytes hk]

theorem string_ofCode {off : ℕ} (hoff : sizeofInt ≤ off) :
    string (.ofCode k) off = overread := by
  refine string_of_not_mem fun hmem => ?_
  rw [ReceiveLine.ofCode, List.drop_append, List.drop_eq_nil_of_le (by rwa [length_leBytes]),
    List.nil_append] at hmem
  exact absurd (List.eq_of_mem_replicate (List.mem_of_mem_drop hmem)) (by decide)

theorem leBytes_reqType (buf : ReceiveLine) :
    leBytes sizeofInt buf.reqType = slice buf.bytes 0 sizeofInt := by
  have hlen : (slice buf.bytes 0 sizeofInt).length = sizeofInt := by
    rw [slice, List.length_take, List.drop_zero, buf.size]
    rfl
  have hbytes := leBytes_ofLeBytes (slice buf.bytes 0 sizeofInt)
  rwa [hlen] at hbytes

/-- Behind a code that is cut short, the buffer may make it unknown. -/
theorem reqType_fill_255 (hlen : d.bytes.length < sizeofInt) :
    (socketRecv (.fill 255) d).reqType ∉ reqTypes := by
  intro hk
  have hlast : (leBytes sizeofInt (socketRecv (.fill 255) d).reqType)[3]? = some 255 := by
    have h3 : d.bytes.length ≤ 3 := Nat.le_of_lt_succ hlen
    rw [leBytes_reqType, getElem?_slice, if_pos (by decide), bytes_socketRecv,
      List.getElem?_append_right (by omega), List.getElem?_drop, ReceiveLine.fill,
      List.getElem?_replicate, if_pos (by simp only [BUFSIZ]; omega)]
  have hall : ∀ k ∈ reqTypes, (leBytes sizeofInt k)[3]? ≠ some 255 := by decide
  exact hall _ hk hlast

/-- A logout that ends well takes a user out of the table. -/
theorem encodeAct_reqLogout_ne : encodeAct mem (reqLogout s a) ≠ pure s := by
  intro h
  have hres : (reqLogout s a).result.mapError Stop.fault = .ok s := congrArg Emit.result h
  rcases hr : (reqLogout s a).result with f | s'
  · rw [hr] at hres
    cases hres
  · rw [hr] at hres
    obtain ⟨chnls, -, hs'⟩ := Emit.bind_eq_ok_iff.mp hr
    split at hs'
    · cases hs'
    cases hres
    have hcount : s.allUsers.count - 1 = s.allUsers.count :=
      congrArg (fun s => s.allUsers.count) (Except.ok.inj hs')
    omega

/-- **Every code is acted on**: in a buffer without terminators none of the branches leaves the
state and sends nothing. -/
theorem serve_ofCode_ne (hk : k ∈ reqTypes) :
    serve mem s a (.ofCode k) drawn now ≠ pure s := by
  have hover : (overread : Wire ServerState) ≠ pure s := by
    intro h
    cases congrArg Emit.result h
  have hnull : ∀ f, (liftFault (.error f) : Wire ServerState) ≠ pure s := by
    intro f h
    cases congrArg Emit.result h
  have htype : (ReceiveLine.ofCode k).reqType = k := reqType_ofCode <| by
    have hall : ∀ k ∈ reqTypes, k < 256 ^ sizeofInt := by decide
    exact hall k hk
  have hstr : ∀ {off}, sizeofInt ≤ off → string (.ofCode k) off = overread := string_ofCode
  simp only [reqTypes, List.mem_cons, List.not_mem_nil, or_false] at hk
  rcases hk with h | h | h | h | h | h | h | h | h | h
  · rw [serve_login (htype.trans h), serveLogin, readField, hstr (by decide)]
    exact hover
  · rw [serve_say (htype.trans h), serveSay, hstr (by decide)]
    exact hover
  · rw [serve_join (htype.trans h), serveJoin, readField, hstr (by decide)]
    exact hover
  · rw [serve_list (htype.trans h)]
    intro hc
    cases congrArg Emit.out hc
  · rw [serve_who (htype.trans h), serveWho, readField, hstr (by decide)]
    exact hover
  · rw [serve_leave (htype.trans h), serveLeave, hstr (by decide)]
    exact hover
  · rw [serve_logout (htype.trans h)]
    exact encodeAct_reqLogout_ne
  · rw [serve_servJoin (htype.trans h), serveServJoin]
    cases findServerAddress s.cnnctSrvrs a with
    | none => exact hnull _
    | some srvr =>
      simp only [readField, hstr (show sizeofInt ≤ offReqChannel by decide)]
      exact hover
  · rw [serve_servLeave (htype.trans h)]
    cases hs : findServerAddress s.cnnctSrvrs a with
    | none =>
      rw [serveServLeave_stranger hs]
      exact hnull _
    | some srv =>
      rcases Int.lt_or_le srv.numChnnls 0 with hlt | h0
      · rw [serveServLeave_below hs hlt]
        exact hnull _
      · rw [serveServLeave_read hs h0, hstr (by decide)]
        exact hover
  · rw [serve_servSay (htype.trans h), serveServSay, hstr (by decide)]
    exact hover

/-- **A code that is cut short** is handled from the datagram exactly if no code begins so: it is
then unknown, whatever the buffer held. -/
theorem ownBytes_iff_of_short (hlen : d.bytes.length < sizeofInt) :
    OwnBytes s a drawn now d ↔ ∀ k ∈ reqTypes, ¬ d.bytes <+: leBytes sizeofInt k := by
  constructor
  · intro h k hk hpre
    have hcode : socketRecv (.ofCode k) d = .ofCode k :=
      socketRecv_of_prefix (hpre.trans (List.prefix_append _ _))
    have hsame := h (fun _ => 0) (fun _ => 0) (.ofCode k) (.fill 255)
    rw [hcode, serve_other (reqType_fill_255 hlen)] at hsame
    exact serve_ofCode_ne hk hsame
  · intro h mem mem' buf buf'
    have hother : ∀ buf, (socketRecv buf d).reqType ∉ reqTypes := by
      intro buf hk
      refine h _ hk ?_
      rw [leBytes_reqType, bytes_socketRecv, slice, List.drop_zero, List.take_append,
        List.take_of_length_le (Nat.le_of_lt hlen)]
      exact List.prefix_append _ _
    rw [serve_other (hother buf), serve_other (hother buf')]

end Codes

/-! ### Every datagram -/

section Whole

variable {s : ServerState} {a : Sockaddr} {d : Received} {drawn : Id} {now : ℤ}

theorem reqType_socketRecv (h : sizeofInt ≤ d.bytes.length) (buf : ReceiveLine) :
    (socketRecv buf d).reqType = d.reqType := by
  rw [ReceiveLine.reqType, slice_socketRecv (by rwa [Nat.zero_add])]
  rfl

/-- Where no block is shown, two runs differ by the buffer alone. -/
theorem ownBytes_iff_same {mem : Heap} {f : ReceiveLine → Wire ServerState}
    (hlen : sizeofInt ≤ d.bytes.length) (hlist : d.reqType ≠ REQ_LIST)
    (hf : ∀ buf : ReceiveLine, buf.reqType = d.reqType → serve mem s a buf drawn now = f buf) :
    OwnBytes s a drawn now d ↔ Same f d := by
  have hbranch : ∀ (mem' : Heap) (buf : ReceiveLine),
      serve mem' s a (socketRecv buf d) drawn now = f (socketRecv buf d) := by
    intro mem' buf
    have htype := reqType_socketRecv hlen buf
    rw [serve_mem (htype ▸ hlist) mem' mem, hf _ htype]
  constructor
  · intro h buf buf'
    rw [← hbranch mem, ← hbranch mem]
    exact h mem mem buf buf'
  · intro h mem₁ mem₂ buf buf'
    rw [hbranch, hbranch]
    exact h buf buf'

/-- A list shows its block and nothing else. -/
theorem ownBytes_list_iff (hlen : sizeofInt ≤ d.bytes.length) (hlist : d.reqType = REQ_LIST) :
    OwnBytes s a drawn now d ↔ ∀ c ∈ s.names, c.bytes.length + 1 = CHANNEL_MAX := by
  have hserve : ∀ (mem : Heap) (buf : ReceiveLine),
      serve mem s a (socketRecv buf d) drawn now = ⟨[(a, textList mem s.names)], .ok s⟩ :=
    fun mem buf => serve_list ((reqType_socketRecv hlen buf).trans hlist)
  rw [← textList_eq_iff]
  constructor
  · intro h mem mem'
    have hout := congrArg Emit.out (h mem mem' (.fill 0) (.fill 0))
    rw [hserve, hserve] at hout
    exact congrArg Prod.snd (List.singleton_inj.mp hout)
  · intro h mem mem' buf buf'
    rw [hserve, hserve, h mem mem']

/-- **A request is handled from its own bytes** exactly if everything that is read of it was
received. -/
theorem ownBytes_iff_whole (s : ServerState) (a : Sockaddr) (drawn : Id) (now : ℤ) (d : Received) :
    OwnBytes s a drawn now d ↔ Whole s a d := by
  rw [Whole]
  split
  · next hlen => exact ownBytes_iff_of_short hlen
  next hge =>
  have hlen := Nat.not_lt.mp hge
  have hne : d.reqType ≠ REQ_LIST → ∀ {f : ReceiveLine → Wire ServerState},
      (∀ buf : ReceiveLine, buf.reqType = d.reqType →
        serve (fun _ => 0) s a buf drawn now = f buf) →
      (OwnBytes s a drawn now d ↔ Same f d) := fun hlist _ hf => ownBytes_iff_same hlen hlist hf
  split
  · next htype =>
    simp only [List.mem_cons, List.not_mem_nil, or_false] at htype
    rcases htype with h | h | h | h
    · rw [hne (by rw [h]; decide) fun _ hbuf => serve_login (hbuf.trans h)]
      exact same_serveLogin_iff
    · rw [hne (by rw [h]; decide) fun _ hbuf => serve_join (hbuf.trans h)]
      exact same_serveJoin_iff
    · rw [hne (by rw [h]; decide) fun _ hbuf => serve_who (hbuf.trans h)]
      exact same_serveWho_iff
    · rw [hne (by rw [h]; decide) fun _ hbuf => serve_leave (hbuf.trans h)]
      exact same_serveLeave_iff
  next hstring =>
  split
  · next h =>
    rw [hne (by rw [h]; decide) fun _ hbuf => serve_say (hbuf.trans h)]
    exact same_serveSay_iff
  next hsay =>
  split
  · next h => exact ownBytes_list_iff hlen h
  next hlist =>
  split
  · next h =>
    rw [hne hlist fun _ hbuf => serve_servJoin (hbuf.trans h)]
    exact same_serveServJoin_iff
  next hjoin =>
  split
  · next h =>
    rw [hne hlist fun _ hbuf => serve_servLeave (hbuf.trans h)]
    exact same_serveServLeave_iff
  next hleave =>
  split
  · next h =>
    rw [hne hlist fun _ hbuf => serve_servSay (hbuf.trans h)]
    exact same_serveServSay_iff
  next hservSay =>
  -- a logout, or a code that is not known: nothing is read
  refine iff_of_true ?_ trivial
  by_cases h : d.reqType = REQ_LOGOUT
  · rw [hne hlist fun _ hbuf => serve_logout (hbuf.trans h)]
    exact fun _ _ => rfl
  · have hother : d.reqType ∉ reqTypes := by
      simp only [List.mem_cons, List.not_mem_nil, or_false, not_or] at hstring
      simp only [reqTypes, List.mem_cons, List.not_mem_nil, or_false, not_or]
      exact ⟨hstring.1, hsay, hstring.2.1, hlist, hstring.2.2.1, hstring.2.2.2, h, hjoin, hleave,
        hservSay⟩
    rw [hne hlist fun _ hbuf => serve_other (hbuf ▸ hother)]
    exact fun _ _ => rfl

/-- `/list` right after the start: behind the name `Common` is what the block held. -/
theorem not_ownBytes_list : ¬ OwnBytes (ServerState.start [] 0 0) ⟨11, 4000⟩ 0 0
    ⟨leBytes sizeofInt REQ_LIST, by decide⟩ := by
  intro h
  have hlist := (ownBytes_list_iff (by decide) (by decide)).mp h common (by decide)
  exact absurd hlist (by decide)

end Whole

end DuckChat
