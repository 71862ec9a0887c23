import DuckChat.Hops

/-!
# From a line to the wire

What a client sends, as bytes. Each `send_…_req` clears a structure and fills it; `main` fills two
that it does not clear, so that what stood on the stack is sent behind the strings. A string that is
copied by `strncpy` gets no terminator, and has one because the structure was cleared.

A datagram conveys a request if every server, in every state and with every buffer, does with it
what the handlers of the model do with the request. The one datagram of a client that conveys none
is a `/who` whose name fills its field: it stops every server.

## Main definitions

* `requestSayBytes`, `requestWhoBytes`, `requestLeaveBytes`, `requestListBytes`,
  `requestLogoutBytes` — the structures of `helper_functions.c`
* `firstDatagrams` — those of `main`
* `Client.sends` — the datagrams of a turn
* `Conveys`, `Stops`, `ClientMessage.SentAs` — what a datagram does at a server
* `Host` — a server process with its buffer

## Main results

* `stops_fullWho` — a name without its terminator
* `turn_conveys` — a line is sent as what it asks for
* `firstDatagrams_convey` — so is the name that a client starts with
-/

set_option autoImplicit false

namespace DuckChat

/-! ### Structures -/

def offReqText : ℕ := offReqChannel + CHANNEL_MAX
def sizeofRequestSay : ℕ := offReqText + SAY_MAX

/-- `send_say_req`, up to its `sendto`. -/
def requestSayBytes (activeChannel : Name) (buff : List UInt8) : List UInt8 :=
  let rs := strcpy (zeroed sizeofRequestSay) offReqChannel activeChannel.bytes
  let rs := putNat rs 0 sizeofInt REQ_SAY
  strcpy rs offReqText buff

/-- A structure with a type only. -/
def requestBytes (reqType : ℕ) : List UInt8 := putNat (zeroed sizeofInt) 0 sizeofInt reqType

/-- `send_list_req`, up to its `sendto`. -/
def requestListBytes : List UInt8 := requestBytes REQ_LIST

/-- `send_logout_req`, up to its `sendto`. -/
def requestLogoutBytes : List UInt8 := requestBytes REQ_LOGOUT

/-- A structure with the argument of the line, the type first. Without an argument nothing is
sent. -/
def requestNamedBytes (reqType : ℕ) (buff : List UInt8) : Option (List UInt8) :=
  let (chnl, chnlLen) := commandArg buff
  if chnlLen = 0 then none
  else
    let rq := putNat (zeroed sizeofRequestJoin) 0 sizeofInt reqType
    some (strncpy rq offReqChannel (buff.drop chnl.toNat) chnlLen)

/-- `send_who_req`, up to its `sendto`. -/
def requestWhoBytes (buff : List UInt8) : Option (List UInt8) := requestNamedBytes REQ_WHO buff

/-- `send_leave_req`, up to its `sendto`. -/
def requestLeaveBytes (buff : List UInt8) : Option (List UInt8) := requestNamedBytes REQ_LEAVE buff

/-- What stands on the stack at a place for a login, or for a join. -/
structure Stack where
  bytes : List UInt8
  size : bytes.length = sizeofRequestJoin

/-- A structure with a type and a string that is not cleared. -/
def fillOver (stack : Stack) (reqType : ℕ) (str : List UInt8) : List UInt8 :=
  strcpy (putNat stack.bytes 0 sizeofInt reqType) offReqChannel str

/-- `req_lg` of `main`. -/
def requestLoginBytes (stack : Stack) (usrname : Username) : List UInt8 :=
  fillOver stack REQ_LOGIN usrname.bytes

/-- `req_jn` of `main`. -/
def firstJoinBytes (stack : Stack) : List UInt8 := fillOver stack REQ_JOIN common.bytes

/-- What `main` sends. -/
def firstDatagrams (reqLg reqJn : Stack) (usrname : Username) : List (List UInt8) :=
  [requestLoginBytes reqLg usrname, firstJoinBytes reqJn]

/-- The datagrams of one turn of the loop of `send_thread`. -/
def Client.sends (c : Client) (buff : Line) : List (List UInt8) :=
  if c.logout then []
  else
    match decodeInput buff.bytes with
    | .join => (requestJoinBytes buff.bytes).toList
    | .say => [requestSayBytes c.activeChannel buff.bytes]
    | .list => [requestListBytes]
    | .who => (requestWhoBytes buff.bytes).toList
    | .leave =>
        if c.joinedChnls.live.any fun x => getCommandArg buff.bytes == some x.bytes then
          (requestLeaveBytes buff.bytes).toList
        else []
    | .switch => []
    | .logout => [requestLogoutBytes]
    | .unknown => []

/-! ### Datagrams that say something -/

/-- Every server does with the datagram what the model does with the request. -/
def Conveys (rq : Request) (bytes : List UInt8) : Prop :=
  ∀ (st : Station) (src : Sockaddr),
    st.answer src bytes = encodeAct st.mem (handle st.server src rq st.drawn st.now)

/-- Every server stops at the datagram, and sends nothing for it. -/
def Stops (bytes : List UInt8) : Prop :=
  ∀ (st : Station) (src : Sockaddr), ∃ e, st.answer src bytes = ⟨[], .error e⟩

/-- What is sent as a message does at every server what the message is for. -/
def ClientMessage.SentAs (m : ClientMessage) (bytes : List UInt8) : Prop :=
  match m with
  | .request rq => Conveys (.client rq) bytes
  | .fullWho _ => Stops bytes

theorem exists_of_forall₂ {α β : Type} {R : α → β → Prop} {as : List α} {bs : List β}
    (h : List.Forall₂ R as bs) {b : β} (hb : b ∈ bs) : ∃ a ∈ as, R a b := by
  induction h with
  | nil => exact absurd hb List.not_mem_nil
  | cons ha _ ih =>
    rcases List.mem_cons.mp hb with rfl | hb
    · exact ⟨_, List.mem_cons_self, ha⟩
    · obtain ⟨a, hmem, hR⟩ := ih hb
      exact ⟨a, List.mem_cons_of_mem _ hmem, hR⟩

section Conveys

variable {bytes : List UInt8} {n off reqType : ℕ} {c : Name}

/-- A datagram that puts a request into every buffer conveys it. -/
theorem conveys_of_holds {rq : Request}
    (h : ∀ receiveLine, (socketRecv receiveLine (receive bytes)).Holds rq) : Conveys rq bytes :=
  fun _ _ => serve_eq_handle (h _)

/-- A packet of a server. -/
theorem conveys_s2s (m : S2S) : Conveys (.s2s m) m.bytes := by
  intro st src
  have hlen : m.bytes.length ≤ BUFSIZ := by
    cases m with
    | join c => exact (length_fillRequest _ c).trans_le (by decide)
    | leave c => exact (length_fillRequest _ c).trans_le (by decide)
    | say m => exact m.length_bytes.trans_le (by decide)
  have hbytes : (receive m.bytes).bytes = m.bytes := List.take_of_length_le hlen
  have hrecv : (socketRecv st.receiveLine (receive m.bytes)).bytes =
      m.bytes ++ st.receiveLine.bytes.drop m.bytes.length := by rw [bytes_socketRecv, hbytes]
  exact serve_bytes m hrecv

theorem reqType_receive (h4 : sizeofInt ≤ bytes.length) (h : bytes.length ≤ BUFSIZ)
    (ht : ofLeBytes (slice bytes 0 sizeofInt) = reqType) (receiveLine : ReceiveLine) :
    (socketRecv receiveLine (receive bytes)).reqType = reqType := by
  have hbytes : (receive bytes).bytes = bytes := List.take_of_length_le h
  rw [ReceiveLine.reqType, slice_socketRecv (by rw [hbytes]; omega), hbytes, ht]

theorem hasString_receive {str : CStr n} (h : bytes.length ≤ BUFSIZ)
    (hf : field n bytes off = some str) (receiveLine : ReceiveLine) :
    (socketRecv receiveLine (receive bytes)).HasString off str.bytes := by
  have hbytes : (receive bytes).bytes = bytes := List.take_of_length_le h
  obtain ⟨h0, hstr⟩ := cstring_of_field hf
  have hd : (receive bytes).str off = str.bytes := by
    rw [Received.str, hbytes]
    exact hstr
  rw [← hd]
  exact hasString_of_mem (by rwa [hbytes]) receiveLine

/-! ### Structures that are cleared -/

/-- A `strncpy` of the argument behind the type makes what `s2s_fill_join` makes. -/
theorem requestNamedBytes_eq {buff : List UInt8} (harg : getCommandArg buff = some c.bytes)
    (hc : c.bytes ≠ []) : requestNamedBytes reqType buff = some (fillRequest reqType c) := by
  have hlen : c.bytes.length ≠ 0 := mt List.length_eq_zero_iff.mp hc
  have hfits : c.bytes.length < CHANNEL_MAX := c.fits
  have hroom : offReqChannel + c.bytes.length < sizeofRequestJoin := Nat.add_lt_add_left hfits _
  have hcomm : ∀ str : List UInt8, put (putNat (zeroed sizeofRequestJoin) 0 sizeofInt reqType)
      offReqChannel str = putNat (put (zeroed sizeofRequestJoin) offReqChannel str) 0 sizeofInt
        reqType := fun str => put_comm (Or.inl (by rw [length_leBytes]; decide))
  rw [requestNamedBytes, commandArg_eq, harg]
  simp only [if_neg hlen, Int.toNat_natCast, drop_of_getCommandArg harg]
  rw [strncpy, hcomm, ← strncpy, strncpy_zeroed hroom, fillRequest, strcpy, strcpy, hcomm]

theorem length_requestSayBytes (c : Name) (t : List UInt8) :
    (requestSayBytes c t).length = sizeofRequestSay := by
  simp only [requestSayBytes, length_strcpy, length_putNat, length_zeroed]

/-- The fields of a say. -/
theorem read_requestSayBytes (c : Name) (t : SayText) :
    ofLeBytes (slice (requestSayBytes c t.bytes) 0 sizeofInt) = REQ_SAY ∧
      field CHANNEL_MAX (requestSayBytes c t.bytes) offReqChannel = some c ∧
      field SAY_MAX (requestSayBytes c t.bytes) offReqText = some t := by
  refine ⟨?_, ?_, ?_⟩
  · rw [requestSayBytes, slice_strcpy_of_disjoint t.fits (Or.inr (by decide))]
    refine ofLeBytes_slice_putNat (by decide) ?_
    rw [length_strcpy, length_zeroed]
    decide
  · have hslice : slice (requestSayBytes c t.bytes) offReqChannel CHANNEL_MAX =
        slice (strcpy (zeroed sizeofRequestSay) offReqChannel c.bytes) offReqChannel
          CHANNEL_MAX := by
      rw [requestSayBytes, slice_strcpy_of_disjoint t.fits (Or.inr (by decide)),
        slice_putNat_of_disjoint (Or.inl (by decide))]
    rw [field_congr hslice, field_strcpy_self]
    rw [length_zeroed]
    decide
  · rw [requestSayBytes, field_strcpy_self]
    rw [length_putNat, length_strcpy, length_zeroed]
    decide

/-! ### Structures that are not -/

/-- Whatever stood on the stack, the type and the string are in the buffer. -/
theorem holds_fillOver (stack : Stack) (str : CStr n) (hn : offReqChannel + n ≤ sizeofRequestJoin)
    (ht : reqType < 256) (receiveLine : ReceiveLine) :
    (socketRecv receiveLine (receive (fillOver stack reqType str.bytes))).reqType = reqType ∧
      (socketRecv receiveLine (receive (fillOver stack reqType str.bytes))).HasString offReqChannel
        str.bytes := by
  have hlen : (fillOver stack reqType str.bytes).length = sizeofRequestJoin := by
    rw [fillOver, length_strcpy, length_putNat, stack.size]
  have htype : ofLeBytes (slice (fillOver stack reqType str.bytes) 0 sizeofInt) = reqType := by
    rw [fillOver, slice_strcpy_of_disjoint str.fits (Or.inr (by decide))]
    refine ofLeBytes_slice_putNat (Nat.lt_of_lt_of_le ht (by decide)) ?_
    rw [stack.size]
    decide
  have hfield : field n (fillOver stack reqType str.bytes) offReqChannel = some str :=
    field_strcpy_self str (by rwa [length_putNat, stack.size])
  exact ⟨reqType_receive (by rw [hlen]; decide) (by rw [hlen]; decide) htype receiveLine,
    hasString_receive (by rw [hlen]; decide) hfield receiveLine⟩

/-! ### What the datagrams say -/

/-- A structure with a type and a name, for the requests that have a name. -/
theorem conveys_fillRequest {rq : ClientRequest} (ht : reqType < 256)
    (hrq : ∀ buf : ReceiveLine, buf.reqType = reqType → buf.HasString offReqChannel c.bytes →
      buf.Holds (.client rq)) : Conveys (.client rq) (fillRequest reqType c) := by
  have hle : (fillRequest reqType c).length ≤ BUFSIZ := by
    rw [length_fillRequest]
    decide
  refine conveys_of_holds fun receiveLine => hrq _ ?_ ?_
  · exact reqType_receive (by rw [length_fillRequest]; decide) hle (reqType_fillRequest ht c)
      receiveLine
  · exact hasString_receive hle (field_fillRequest reqType c) receiveLine

theorem conveys_requestBytes {rq : ClientRequest} (ht : reqType < 256)
    (hrq : ∀ buf : ReceiveLine, buf.reqType = reqType → buf.Holds (.client rq)) :
    Conveys (.client rq) (requestBytes reqType) := by
  have hlen : (requestBytes reqType).length = sizeofInt := by
    rw [requestBytes, length_putNat, length_zeroed]
  refine conveys_of_holds fun receiveLine => hrq _ ?_
  refine reqType_receive hlen.ge (by rw [hlen]; decide) ?_ receiveLine
  exact ofLeBytes_slice_putNat (Nat.lt_of_lt_of_le ht (by decide)) (length_zeroed _).ge

theorem conveys_requestSayBytes (c : Name) (t : SayText) :
    Conveys (.client (.say c t)) (requestSayBytes c t.bytes) := by
  have hle : (requestSayBytes c t.bytes).length ≤ BUFSIZ := by
    rw [length_requestSayBytes]
    decide
  obtain ⟨ht, hc, htext⟩ := read_requestSayBytes c t
  refine conveys_of_holds fun receiveLine => ⟨?_, ?_, ?_⟩
  · exact reqType_receive (by rw [length_requestSayBytes]; decide) hle ht receiveLine
  · exact hasString_receive hle hc receiveLine
  · exact hasString_receive hle htext receiveLine

/-- **The first datagrams** say who comes, whatever stood on the stack. -/
theorem firstDatagrams_convey (reqLg reqJn : Stack) (usrname : Username) :
    List.Forall₂ (fun rq bytes => Conveys (.client rq) bytes) (firstRequests usrname)
      (firstDatagrams reqLg reqJn usrname) :=
  .cons (conveys_of_holds fun receiveLine =>
      holds_fillOver reqLg usrname (by decide) (by decide) receiveLine)
    (.cons (conveys_of_holds fun receiveLine =>
      holds_fillOver reqJn common (by decide) (by decide) receiveLine) .nil)

end Conveys

/-! ### A turn -/

section Turn

variable {c c' : Client} {buff : Line}

/-- Without an argument there is no datagram with a name. -/
theorem requestNamedBytes_eq_none {reqType : ℕ} {buf : List UInt8}
    (h : ∀ chnl ∈ getCommandArg buf, chnl = []) : requestNamedBytes reqType buf = none := by
  rw [requestNamedBytes, commandArg_eq]
  cases harg : getCommandArg buf with
  | none => rfl
  | some chnl =>
    rw [h chnl harg]
    rfl

theorem requestJoinBytes_eq_none {buf : List UInt8} (h : getCommandArg buf = some []) :
    requestJoinBytes buf = none := by
  rw [requestJoinBytes, commandArg_eq, h]
  rfl

/-- The datagram with a name that fills its field. -/
theorem requestWhoBytes_of_full {buf chnl : List UInt8} (harg : getCommandArg buf = some chnl)
    (hlen : chnl.length = CHANNEL_MAX) :
    requestWhoBytes buf = some (put (putNat (zeroed sizeofRequestJoin) 0 sizeofInt REQ_WHO)
      offReqChannel chnl) := by
  have hne : chnl.length ≠ 0 := by rw [hlen]; decide
  rw [requestWhoBytes, requestNamedBytes, commandArg_eq, harg]
  simp only [if_neg hne, Int.toNat_natCast, drop_of_getCommandArg harg]
  rw [strncpy, Nat.sub_self, List.replicate_zero, List.append_nil, List.take_length]

/-- **A name without its terminator** stops every server: the copy takes in what stands behind the
name, up to some zero, if there is one. -/
theorem stops_fullWho {chnl : List UInt8} (h0 : 0 ∉ chnl) (hlen : chnl.length = CHANNEL_MAX) :
    Stops (put (putNat (zeroed sizeofRequestJoin) 0 sizeofInt REQ_WHO) offReqChannel chnl) := by
  generalize hb : put (putNat (zeroed sizeofRequestJoin) 0 sizeofInt REQ_WHO) offReqChannel chnl =
    bytes
  have hsize : bytes.length = sizeofRequestJoin := by
    rw [← hb, length_put, length_putNat, length_zeroed]
  have htype : ofLeBytes (slice bytes 0 sizeofInt) = REQ_WHO := by
    rw [← hb, slice_put_of_disjoint (Or.inr (by decide))]
    exact ofLeBytes_slice_putNat (by decide) (by rw [length_zeroed]; decide)
  have hname : slice bytes offReqChannel CHANNEL_MAX = chnl := by
    rw [← hb, slice_put_self (by rw [hlen, length_putNat, length_zeroed]; decide), ← hlen,
      List.take_length, Nat.sub_self, slice, List.take_zero, List.append_nil]
  intro st src
  have hle : bytes.length ≤ BUFSIZ := by rw [hsize]; decide
  have hbytes : (receive bytes).bytes = bytes := List.take_of_length_le hle
  have hread : slice (socketRecv st.receiveLine (receive bytes)).bytes offReqChannel CHANNEL_MAX =
      chnl := by
    rw [slice_socketRecv (by rw [hbytes, hsize]; decide), hbytes, hname]
  have hlong : ¬ (cstring ((socketRecv st.receiveLine (receive bytes)).bytes.drop
      offReqChannel)).length < CHANNEL_MAX := by
    rw [← zero_mem_slice_iff (by rw [(socketRecv _ _).size]; decide), hread]
    exact h0
  rw [Station.answer, serve_who (reqType_receive (by rw [hsize]; decide) hle htype _), serveWho,
    readField, string]
  split
  · refine ⟨.fault (.store .above), ?_⟩
    simp only [Emit.lift_eq, Emit.mk_ok_bind, List.nil_append, liftFault, copyTo_eq_error hlong,
      Except.mapError, Emit.mk_error_bind]
  · exact ⟨.overread, rfl⟩

theorem conveys_join (h : (c.caseJoin buff.bytes).result = .ok c') :
    List.Forall₂ ClientMessage.SentAs (c.caseJoin buff.bytes).out
      (requestJoinBytes buff.bytes).toList := by
  obtain ⟨d, harg⟩ := Client.exists_arg_caseJoin h
  by_cases hd : d.bytes = []
  · rw [Client.caseJoin_nil (hd ▸ harg), requestJoinBytes_eq_none (hd ▸ harg)]
    exact .nil
  · rw [Client.caseJoin_eq harg hd, requestJoinBytes_eq harg hd]
    exact .cons (conveys_fillRequest (by decide) fun _ ht hs => ⟨ht, hs⟩) .nil

theorem conveys_who {u : Unit} (h : (sendWhoReq buff.bytes).result = .ok u) :
    List.Forall₂ ClientMessage.SentAs (sendWhoReq buff.bytes).out
      (requestWhoBytes buff.bytes).toList := by
  rw [sendWhoReq] at h ⊢
  cases harg : getCommandArg buff.bytes with
  | none =>
    rw [requestWhoBytes, requestNamedBytes_eq_none (by simp [harg])]
    exact .nil
  | some chnl =>
    rw [harg] at h
    by_cases hne : chnl = []
    · rw [requestWhoBytes, requestNamedBytes_eq_none (by simp [harg, hne]), hne]
      exact .nil
    · simp only [if_neg hne] at h ⊢
      by_cases hfull : 0 ∉ chnl ∧ chnl.length = CHANNEL_MAX
      · rw [dif_pos hfull, requestWhoBytes_of_full harg hfull.2]
        exact .cons (stops_fullWho hfull.1 hfull.2) .nil
      · rw [dif_neg hfull] at h ⊢
        obtain ⟨d, hd, -⟩ := Emit.bind_eq_ok_iff.mp h
        obtain rfl : chnl = d.bytes := copyTo_eq_ok_iff.mp hd
        rw [copyTo_bytes, requestWhoBytes, requestNamedBytes_eq harg hne]
        exact .cons (conveys_fillRequest (by decide) fun _ ht hs => ⟨ht, hs⟩) .nil

theorem conveys_leave (h : (c.caseLeave buff.bytes).result = .ok c') :
    List.Forall₂ ClientMessage.SentAs (c.caseLeave buff.bytes).out
      (if c.joinedChnls.live.any fun x => getCommandArg buff.bytes == some x.bytes then
        (requestLeaveBytes buff.bytes).toList
      else []) := by
  obtain ⟨d, harg⟩ := Client.exists_arg_caseLeave h
  by_cases hd : d.bytes = []
  · rw [Client.caseLeave_nil (hd ▸ harg), requestLeaveBytes,
      requestNamedBytes_eq_none (by simp [harg, hd])]
    split <;> exact .nil
  · have hany : (c.joinedChnls.live.any fun x => getCommandArg buff.bytes == some x.bytes) = true ↔
        d ∈ c.joinedChnls.live := by
      rw [harg, List.any_eq_true]
      constructor
      · rintro ⟨x, hx, heq⟩
        rwa [CStr.ext (Option.some.inj (beq_iff_eq.mp heq))]
      · exact fun hmem => ⟨d, hmem, beq_self_eq_true _⟩
    rw [Client.caseLeave_eq harg hd]
    by_cases hmem : d ∈ c.joinedChnls.live
    · rw [if_pos hmem, if_pos (hany.mpr hmem), requestLeaveBytes, requestNamedBytes_eq harg hd]
      exact .cons (conveys_fillRequest (by decide) fun _ ht hs => ⟨ht, hs⟩) .nil
    · rw [if_neg hmem, if_neg (mt hany.mp hmem)]
      exact .nil

/-- **A line is sent as what it asks for**, if the turn ends well. -/
theorem turn_conveys (h : (c.turn buff).result = .ok c') :
    List.Forall₂ ClientMessage.SentAs (c.turn buff).out
      (c.sends buff) := by
  rw [Client.turn] at h ⊢
  rw [Client.sends]
  by_cases hl : c.logout = true
  · rw [if_pos hl, if_pos hl]
    exact .nil
  · rw [if_neg hl] at h
    rw [if_neg hl, if_neg hl]
    cases hk : decodeInput buff.bytes with
    | say =>
      rw [hk] at h
      obtain ⟨_, hsay, -⟩ := Emit.bind_eq_ok_iff.mp h
      obtain ⟨t, ht, -⟩ := Emit.bind_eq_ok_iff.mp hsay
      have ht : copyTo SAY_MAX buff.bytes = .ok t := ht
      rw [sendSayReq, ht, copyTo_eq_ok_iff.mp ht]
      exact .cons (conveys_requestSayBytes _ t) .nil
    | join =>
      rw [hk] at h
      exact conveys_join h
    | list => exact .cons (conveys_requestBytes (by decide) fun _ ht => ht) .nil
    | who =>
      rw [hk] at h
      obtain ⟨_, hwho, -⟩ := Emit.bind_eq_ok_iff.mp h
      rw [Emit.out_bind_of_ok hwho]
      show List.Forall₂ _ ((sendWhoReq buff.bytes).out ++ []) (requestWhoBytes buff.bytes).toList
      rw [List.append_nil]
      exact conveys_who hwho
    | leave =>
      rw [hk] at h
      exact conveys_leave h
    | switch => exact .nil
    | logout => exact .cons (conveys_requestBytes (by decide) fun _ ht => ht) .nil
    | unknown => exact .nil

end Turn

/-! ### Server processes -/

/-- A server process: its tables, and its buffer. -/
structure Host where
  server : ServerState
  receiveLine : ReceiveLine

/-- One datagram at a server: the buffer, and what is done. -/
def Host.take (h : Host) (mem : Heap) (src : Sockaddr) (bytes : List UInt8) (drawn : Id) (now : ℤ) :
    ReceiveLine × Wire ServerState :=
  let buf := socketRecv h.receiveLine (receive bytes)
  (buf, serve mem h.server src buf drawn now)

/-- The loops around the `switch` leave the buffer alone. -/
def Host.round (h : Host) (mem : Heap) (x : Act ServerState) : ReceiveLine × Wire ServerState :=
  (h.receiveLine, encodeAct mem x)

/-- A datagram that conveys a request is handled as the request. -/
theorem take_of_conveys {h : Host} {mem : Heap} {src : Sockaddr} {rq : Request} {bytes : List UInt8}
    {drawn : Id} {now : ℤ} (hc : Conveys rq bytes) :
    h.take mem src bytes drawn now = (socketRecv h.receiveLine (receive bytes),
      encodeAct mem (react h.server (.datagram src rq drawn now))) :=
  congrArg (Prod.mk _) (hc ⟨src, h.server, h.receiveLine, mem, drawn, now⟩ src)

namespace Three

/-- A stack full of other things. -/
def litter : Stack := ⟨List.replicate sizeofRequestJoin 170, List.length_replicate⟩

def helloTyped : Typed := ⟨hello.bytes, hello.noNul, by decide, by decide⟩

/-- The line at a client that has just started. -/
theorem turn_helloTyped : (Console.start .cleared).turn helloTyped =
    ⟨[.request (.say common hello)], .ok (Console.start .cleared)⟩ := by
  rw [Console.turn_of_covers rfl (Console.covers_of_cleared rfl)]
  rfl

end Three

end DuckChat
