import DuckChat.OwnBytes

/-!
# Strings copied out of the receive buffer

A handler takes a name or a text out of a request with `strcpy` or `sprintf`, which go on to the
next terminator, wherever it is. What stands behind a field is the next field, or the end of an
earlier datagram. Here every copy that a handler makes is listed, with the field it is meant to read
and the room where it goes.

A copy is listed where the source makes it. The `printf` in front of it may read behind the buffer;
it does not change what is copied.

## Main definitions

* `Copy`, `copies` — the copies out of the receive buffer, branch by branch
* `EndsIn` — a field with a terminator, received or left by earlier datagrams
* `Terminates` — the fields that a request needs to end
* `Endpoint`, `Endpoint.steps` — a server with its buffer, and what it does with some inputs

## Main results

* `fits_of_serve_ok` — where a datagram is handled to the end, every copy has fitted
* `copiesEnd_iff` — one datagram
* `copiesEnd_steps_iff` — every sequence of inputs
-/

set_option autoImplicit false

namespace DuckChat

/-! ### Copies -/

/-- A string that is copied: the field of the request it is in, and the room where it goes. -/
structure Copy where
  off : ℕ
  width : ℕ
  room : ℕ
deriving DecidableEq

namespace Copy

/-- The string ends in its field. -/
def Ends (cp : Copy) (buf : ReceiveLine) : Prop := 0 ∈ slice buf.bytes cp.off cp.width

/-- The string fits where it goes, with its terminator. -/
def Fits (cp : Copy) (buf : ReceiveLine) : Prop :=
  0 ∈ buf.bytes.drop cp.off ∧ (cstring (buf.bytes.drop cp.off)).length < cp.room

/-- It ends in its field and fits where it goes. -/
def Ok (cp : Copy) (buf : ReceiveLine) : Prop := cp.Ends buf ∧ cp.Fits buf

end Copy

/-- The string at an offset, as `strcmp` compares it. -/
def ReceiveLine.str (buf : ReceiveLine) (off : ℕ) : List UInt8 := cstring (buf.bytes.drop off)

/-- `strcpy(new_u->username, username)` in `create_user`. -/
def usernameCopy : Copy := ⟨offReqChannel, USERNAME_MAX, USERNAME_MAX⟩

/-- `re_j->req_channel` and its like, to a field for a channel: in `create_channel`, `add_ch_srv`,
`s2s_fill_join`, `s2s_fill_say`, a `struct text_say` and a `struct text_who`. -/
def channelCopy : Copy := ⟨offReqChannel, CHANNEL_MAX, CHANNEL_MAX⟩

/-- `re_say->req_text`. -/
def textCopy : Copy := ⟨offReqChannel + CHANNEL_MAX, SAY_MAX, SAY_MAX⟩

/-- The `sprintf` of `fill_error`. -/
def errorCopy : Copy :=
  ⟨offReqChannel, CHANNEL_MAX, SAY_MAX - (ascii "Error: Cannot find channel: ").length⟩

/-- The `strcat` of `case REQ_WHO`, with room for the one that follows. -/
def whoErrorCopy : Copy :=
  ⟨offReqChannel, CHANNEL_MAX,
    SAY_MAX - (ascii "Error: Channel \"").length - (ascii "\" does not exist").length⟩

/-- `sss->req_username`, `sss->req_channel` and `sss->req_text`. -/
def sayUsernameCopy : Copy := ⟨offSayUsername, USERNAME_MAX, USERNAME_MAX⟩
def sayChannelCopy : Copy := ⟨offSayChannel, CHANNEL_MAX, CHANNEL_MAX⟩
def sayTextCopy : Copy := ⟨offSayText, SAY_MAX, SAY_MAX⟩

section Copies

variable (s : ServerState) (clientAddr : Sockaddr) (buf : ReceiveLine)

/-- `case REQ_SAY`: one turn for each user of the channel, and `s2s_fill_say`, which copies the
channel before it follows the speaker and the text after that. A turn that faults has made its
copies, and further turns repeat them. -/
def sayCopies : List Copy :=
  match findChannelStr s.channels (buf.str offReqChannel) with
  | none => [errorCopy]
  | some activeCh =>
      activeCh.entries.flatMap (fun _ => [channelCopy, textCopy]) ++
        channelCopy :: if (findUser s.allUsers clientAddr).isSome then [textCopy] else []

/-- `case REQ_JOIN`: `s2s_fill_join`, and `create_channel` for a channel that is new. -/
def joinCopies : List Copy :=
  match findChannelStr s.channels (buf.str offReqChannel) with
  | none => [channelCopy, channelCopy]
  | some _ => [channelCopy]

/-- `case REQ_WHO`. -/
def whoCopies : List Copy :=
  match findChannelStr s.channels (buf.str offReqChannel) with
  | none => [channelCopy, whoErrorCopy]
  | some _ => [channelCopy]

/-- `case REQ_LEAVE`. The packet to the neighbours is filled from the channel. -/
def leaveCopies : List Copy :=
  match findChannelStr s.channels (buf.str offReqChannel) with
  | none => [errorCopy]
  | some _ => []

/-- `has_channel_server`, with any string. -/
def hasChannelServerStr (srvr : Server) (str : List UInt8) : Bool :=
  srvr.subs.any fun c => c.bytes == str

/-- `case REQ_SERV_JOIN`: `add_ch_srv`, and for a channel that is new `create_channel` and
`s2s_fill_join`. -/
def servJoinCopies : List Copy :=
  match findServerAddress s.cnnctSrvrs clientAddr with
  | none => []
  | some srvr =>
      (if hasChannelServerStr srvr (buf.str offReqChannel) then [] else [channelCopy]) ++
        match findChannelStr s.channels (buf.str offReqChannel) with
        | none => [channelCopy, channelCopy]
        | some _ => []

/-- `case REQ_SERV_SAY`: `s2s_fill_leave`, or `fill_text_say`. -/
def servSayCopies : List Copy :=
  match hasId s.recentIds buf.sayId with
  | .error _ => []
  | .ok true => [sayChannelCopy]
  | .ok false =>
      match s.recentIds.record buf.sayId with
      | .error _ => []
      | .ok _ =>
          match findChannelStr s.channels (buf.str offSayChannel) with
          | none => []
          | some active =>
              if active.numUsers = 0 ∧ hasChannelServers s.cnnctSrvrs active.chnlName ≤ 1 then
                [sayChannelCopy]
              else [sayChannelCopy, sayUsernameCopy, sayTextCopy]

/-- The copies that the `switch` makes out of the buffer. A list and a logout have no strings, and
the one of a `REQ_SERV_LEAVE` is passed on and printed only. -/
def copies : List Copy :=
  if buf.reqType = REQ_LOGIN then [usernameCopy]
  else if buf.reqType = REQ_SAY then sayCopies s clientAddr buf
  else if buf.reqType = REQ_JOIN then joinCopies s buf
  else if buf.reqType = REQ_WHO then whoCopies s buf
  else if buf.reqType = REQ_LEAVE then leaveCopies s buf
  else if buf.reqType = REQ_SERV_JOIN then servJoinCopies s clientAddr buf
  else if buf.reqType = REQ_SERV_SAY then servSayCopies s buf
  else []

/-- Every string that is copied ends in its field and fits where it goes. -/
def CopiesEnd : Prop := ∀ cp ∈ copies s clientAddr buf, cp.Ok buf

end Copies

/-! ### What must be received -/

section Received

variable (s : ServerState) (a : Sockaddr) (stale : ReceiveLine) (d : Received)

/-- The field has a terminator: one that was received or, behind the datagram, one that an earlier
datagram has left. -/
def EndsIn (off width : ℕ) : Prop :=
  ∃ k, off ≤ k ∧ k < off + width ∧
    (d.bytes[k]? = some 0 ∨ d.bytes.length ≤ k ∧ stale.bytes[k]? = some 0)

/-- The say of a server is given to the users of its channel. -/
def Delivers (id : Id) (reqChannel : List UInt8) : Prop :=
  hasId s.recentIds id = .ok false ∧ ∃ active ∈ findChannelStr s.channels reqChannel,
    ¬ (active.numUsers = 0 ∧ hasChannelServers s.cnnctSrvrs active.chnlName ≤ 1)

/-- The fields that a request needs to end, by its code: the name, in every request of a client that
has one; the text of a say, if there is somebody to show it to; the name in the join of a neighbour;
in the say of a server the channel, if the say is a repetition, and the user name and the text, if
it is shown to somebody. -/
def Terminates : Prop :=
  let buf := socketRecv stale d
  if buf.reqType ∈ [REQ_LOGIN, REQ_JOIN, REQ_WHO, REQ_LEAVE] then
    EndsIn stale d offReqChannel CHANNEL_MAX
  else if buf.reqType = REQ_SAY then
    EndsIn stale d offReqChannel CHANNEL_MAX ∧
      (ReadsText s a (buf.str offReqChannel) →
        EndsIn stale d (offReqChannel + CHANNEL_MAX) SAY_MAX)
  else if buf.reqType = REQ_SERV_JOIN then
    (findServerAddress s.cnnctSrvrs a).isSome → EndsIn stale d offReqChannel CHANNEL_MAX
  else if buf.reqType = REQ_SERV_SAY then
    (hasId s.recentIds buf.sayId = .ok true → EndsIn stale d offSayChannel CHANNEL_MAX) ∧
      (Delivers s buf.sayId (buf.str offSayChannel) →
        EndsIn stale d offSayUsername USERNAME_MAX ∧ EndsIn stale d offSayText SAY_MAX)
  else True

end Received

section Rules

variable {mem : Heap} {s s' : ServerState} {a : Sockaddr} {buf stale : ReceiveLine} {d : Received}
  {chnl : Channel} {cp : Copy} {off width : ℕ} {drawn : Id} {now : ℤ}

theorem zero_mem_slice_socketRecv_iff :
    0 ∈ slice (socketRecv stale d).bytes off width ↔ EndsIn stale d off width := by
  have hbyte : ∀ k, (socketRecv stale d).bytes[k]? =
      if k < d.bytes.length then d.bytes[k]? else stale.bytes[k]? := by
    intro k
    have hfits := d.fits
    have hsize := stale.size
    rw [socketRecv, getElem?_put, Nat.sub_zero]
    congr 1
    exact propext ⟨fun h => by omega, fun h => by omega⟩
  rw [List.mem_iff_getElem?]
  constructor
  · rintro ⟨i, hi⟩
    rw [getElem?_slice] at hi
    split at hi
    · next hlt =>
      refine ⟨off + i, Nat.le_add_right _ _, by omega, ?_⟩
      rw [hbyte] at hi
      split at hi
      · exact Or.inl hi
      · exact Or.inr ⟨by omega, hi⟩
    · cases hi
  · rintro ⟨k, hk, hlt, hzero⟩
    refine ⟨k - off, ?_⟩
    rw [getElem?_slice, if_pos (by omega), Nat.add_sub_cancel' hk, hbyte]
    rcases hzero with hzero | ⟨hge, hzero⟩
    · have hin : k < d.bytes.length := (List.getElem?_eq_some_iff.mp hzero).1
      rwa [if_pos hin]
    · rwa [if_neg (by omega)]

/-- A copy with as much room as its field is wide is right if the field ends. -/
theorem Copy.ok_iff (hroom : cp.width ≤ cp.room) (hin : cp.off + cp.width ≤ BUFSIZ) :
    cp.Ok buf ↔ 0 ∈ slice buf.bytes cp.off cp.width := by
  refine and_iff_left_of_imp fun h => ⟨?_, ?_⟩
  · exact List.mem_of_mem_take h
  · have hlt := (zero_mem_slice_iff (by rwa [buf.size])).mp h
    omega

theorem ok_usernameCopy_iff :
    usernameCopy.Ok buf ↔ 0 ∈ slice buf.bytes offReqChannel USERNAME_MAX :=
  Copy.ok_iff (by decide) (by decide)

theorem ok_channelCopy_iff :
    channelCopy.Ok buf ↔ 0 ∈ slice buf.bytes offReqChannel CHANNEL_MAX :=
  Copy.ok_iff (by decide) (by decide)

theorem ok_textCopy_iff :
    textCopy.Ok buf ↔ 0 ∈ slice buf.bytes (offReqChannel + CHANNEL_MAX) SAY_MAX :=
  Copy.ok_iff (by decide) (by decide)

theorem ok_errorCopy_iff :
    errorCopy.Ok buf ↔ 0 ∈ slice buf.bytes offReqChannel CHANNEL_MAX :=
  Copy.ok_iff (by decide) (by decide)

theorem ok_whoErrorCopy_iff :
    whoErrorCopy.Ok buf ↔ 0 ∈ slice buf.bytes offReqChannel CHANNEL_MAX :=
  Copy.ok_iff (by decide) (by decide)

theorem ok_sayUsernameCopy_iff :
    sayUsernameCopy.Ok buf ↔ 0 ∈ slice buf.bytes offSayUsername USERNAME_MAX :=
  Copy.ok_iff (by decide) (by decide)

theorem ok_sayChannelCopy_iff :
    sayChannelCopy.Ok buf ↔ 0 ∈ slice buf.bytes offSayChannel CHANNEL_MAX :=
  Copy.ok_iff (by decide) (by decide)

theorem ok_sayTextCopy_iff : sayTextCopy.Ok buf ↔ 0 ∈ slice buf.bytes offSayText SAY_MAX :=
  Copy.ok_iff (by decide) (by decide)

/-- A string that is the name of a channel ends in its field. -/
theorem zero_mem_slice_of_str {c : Name} (h : buf.str off = c.bytes)
    (hin : off + CHANNEL_MAX ≤ BUFSIZ) : 0 ∈ slice buf.bytes off CHANNEL_MAX := by
  rw [zero_mem_slice_iff (by rwa [buf.size])]
  exact (congrArg List.length h).trans_lt c.fits

theorem zero_mem_slice_of_found
    (hf : findChannelStr s.channels (buf.str off) = some chnl) (hin : off + CHANNEL_MAX ≤ BUFSIZ) :
    0 ∈ slice buf.bytes off CHANNEL_MAX := by
  rw [findChannelStr] at hf
  have hname := List.find?_some hf
  exact zero_mem_slice_of_str (beq_iff_eq.mp hname).symm hin

/-! ### One datagram -/

/-- The copies of a loop are those of its first turn. -/
theorem forall_mem_turns_iff {es : List (Option User)} {cps : List Copy} {P : Copy → Prop} :
    (∀ cp ∈ es.flatMap fun _ => cps, P cp) ↔ (es ≠ [] → ∀ cp ∈ cps, P cp) := by
  constructor
  · intro h hne cp hcp
    obtain ⟨e, he⟩ := List.exists_mem_of_ne_nil es hne
    exact h cp (List.mem_flatMap.mpr ⟨e, he, hcp⟩)
  · intro h cp hcp
    obtain ⟨e, he, hcp⟩ := List.mem_flatMap.mp hcp
    exact h (List.ne_nil_of_mem he) cp hcp

theorem sayCopies_iff :
    (∀ cp ∈ sayCopies s a buf, cp.Ok buf) ↔ 0 ∈ slice buf.bytes offReqChannel CHANNEL_MAX ∧
      (ReadsText s a (buf.str offReqChannel) →
        0 ∈ slice buf.bytes (offReqChannel + CHANNEL_MAX) SAY_MAX) := by
  rw [sayCopies, ReadsText]
  cases hf : findChannelStr s.channels (buf.str offReqChannel) with
  | none => simp [ok_errorCopy_iff]
  | some activeCh =>
    have hname := zero_mem_slice_of_found hf (by decide)
    have hchannel := ok_channelCopy_iff.mpr hname
    have hreads : (∃ chnl ∈ some activeCh, ¬ (chnl.entries = [] ∧ findUser s.allUsers a = none)) ↔
        ¬ (activeCh.entries = [] ∧ findUser s.allUsers a = none) := by simp
    rw [hreads, and_iff_right hname, ← ok_textCopy_iff, List.forall_mem_append,
      forall_mem_turns_iff]
    cases findUser s.allUsers a with
    | none => simp [hchannel]
    | some usr => simpa [hchannel] using fun htext _ => htext

theorem joinCopies_iff :
    (∀ cp ∈ joinCopies s buf, cp.Ok buf) ↔ 0 ∈ slice buf.bytes offReqChannel CHANNEL_MAX := by
  rw [joinCopies]
  split <;> simp [ok_channelCopy_iff]

theorem whoCopies_iff :
    (∀ cp ∈ whoCopies s buf, cp.Ok buf) ↔ 0 ∈ slice buf.bytes offReqChannel CHANNEL_MAX := by
  rw [whoCopies]
  split <;> simp [ok_channelCopy_iff, ok_whoErrorCopy_iff]

theorem leaveCopies_iff :
    (∀ cp ∈ leaveCopies s buf, cp.Ok buf) ↔ 0 ∈ slice buf.bytes offReqChannel CHANNEL_MAX := by
  rw [leaveCopies]
  split
  · simp [ok_errorCopy_iff]
  · next chnl hf =>
    exact iff_of_true (fun _ hcp => absurd hcp List.not_mem_nil)
      (zero_mem_slice_of_found hf (by decide))

theorem servJoinCopies_iff :
    (∀ cp ∈ servJoinCopies s a buf, cp.Ok buf) ↔
      ((findServerAddress s.cnnctSrvrs a).isSome →
        0 ∈ slice buf.bytes offReqChannel CHANNEL_MAX) := by
  rw [servJoinCopies]
  cases findServerAddress s.cnnctSrvrs a with
  | none => simp
  | some srvr =>
    simp only [Option.isSome_some, forall_const]
    cases hlisted : hasChannelServerStr srvr (buf.str offReqChannel) with
    | false => cases findChannelStr s.channels (buf.str offReqChannel) <;> simp [ok_channelCopy_iff]
    | true =>
      obtain ⟨c, -, hc⟩ := List.any_eq_true.mp hlisted
      have hname := zero_mem_slice_of_str (beq_iff_eq.mp hc).symm (by decide)
      cases findChannelStr s.channels (buf.str offReqChannel) <;> simp [ok_channelCopy_iff, hname]

theorem servSayCopies_iff :
    (∀ cp ∈ servSayCopies s buf, cp.Ok buf) ↔
      (hasId s.recentIds buf.sayId = .ok true → 0 ∈ slice buf.bytes offSayChannel CHANNEL_MAX) ∧
        (Delivers s buf.sayId (buf.str offSayChannel) →
          0 ∈ slice buf.bytes offSayUsername USERNAME_MAX ∧
            0 ∈ slice buf.bytes offSayText SAY_MAX) := by
  rw [servSayCopies, Delivers]
  cases hd : hasId s.recentIds buf.sayId with
  | error f => simp
  | ok dup =>
    cases dup with
    | true => simp [ok_sayChannelCopy_iff]
    | false =>
      obtain ⟨ids, hids⟩ := exists_record_of_hasId hd
      rw [hids]
      cases hf : findChannelStr s.channels (buf.str offSayChannel) with
      | none => simp
      | some active =>
        have hname := ok_sayChannelCopy_iff.mpr (zero_mem_slice_of_found hf (by decide))
        simp only [Option.mem_def, Option.some.injEq, exists_eq_left']
        by_cases hdrop : active.numUsers = 0 ∧
            hasChannelServers s.cnnctSrvrs active.chnlName ≤ 1
        · simpa [hdrop] using hname
        · have hshown : (∀ cp ∈ [sayChannelCopy, sayUsernameCopy, sayTextCopy], cp.Ok buf) ↔
              0 ∈ slice buf.bytes offSayUsername USERNAME_MAX ∧
                0 ∈ slice buf.bytes offSayText SAY_MAX := by
            rw [List.forall_mem_cons, and_iff_right hname, List.forall_mem_cons,
              List.forall_mem_singleton, ok_sayUsernameCopy_iff, ok_sayTextCopy_iff]
          simp only [if_neg hdrop, hshown]
          exact ⟨fun h => ⟨fun hdup => absurd (Except.ok.inj hdup) Bool.false_ne_true, fun _ => h⟩,
            fun h => h.2 ⟨trivial, hdrop⟩⟩

/-- **The copies of one datagram** are right if the fields it needs end. -/
theorem copiesEnd_iff (s : ServerState) (a : Sockaddr) (stale : ReceiveLine) (d : Received) :
    CopiesEnd s a (socketRecv stale d) ↔ Terminates s a stale d := by
  simp only [Terminates, ← zero_mem_slice_socketRecv_iff]
  generalize socketRecv stale d = buf
  rw [CopiesEnd, copies]
  by_cases hlogin : buf.reqType = REQ_LOGIN
  · rw [if_pos hlogin, if_pos (by rw [hlogin]; decide), List.forall_mem_singleton,
      ok_usernameCopy_iff]
    rfl
  by_cases hsay : buf.reqType = REQ_SAY
  · rw [if_neg hlogin, if_pos hsay, if_neg (by rw [hsay]; decide), if_pos hsay, sayCopies_iff]
  by_cases hjoin : buf.reqType = REQ_JOIN
  · rw [if_neg hlogin, if_neg hsay, if_pos hjoin, if_pos (by rw [hjoin]; decide), joinCopies_iff]
  by_cases hwho : buf.reqType = REQ_WHO
  · rw [if_neg hlogin, if_neg hsay, if_neg hjoin, if_pos hwho, if_pos (by rw [hwho]; decide),
      whoCopies_iff]
  by_cases hleave : buf.reqType = REQ_LEAVE
  · rw [if_neg hlogin, if_neg hsay, if_neg hjoin, if_neg hwho, if_pos hleave,
      if_pos (by rw [hleave]; decide), leaveCopies_iff]
  have hnames : buf.reqType ∉ [REQ_LOGIN, REQ_JOIN, REQ_WHO, REQ_LEAVE] := by
    simp [hlogin, hjoin, hwho, hleave]
  rw [if_neg hlogin, if_neg hsay, if_neg hjoin, if_neg hwho, if_neg hleave, if_neg hnames,
    if_neg hsay]
  by_cases hservJoin : buf.reqType = REQ_SERV_JOIN
  · rw [if_pos hservJoin, if_pos hservJoin, servJoinCopies_iff]
  by_cases hservSay : buf.reqType = REQ_SERV_SAY
  · rw [if_neg hservJoin, if_neg hservJoin, if_pos hservSay, if_pos hservSay, servSayCopies_iff]
  · rw [if_neg hservJoin, if_neg hservJoin, if_neg hservSay, if_neg hservSay]
    exact iff_of_true (fun _ hcp => absurd hcp List.not_mem_nil) trivial

/-! ### What was handled -/

theorem string_ok {str : List UInt8} (h : (string buf off).result = .ok str) :
    0 ∈ buf.bytes.drop off ∧ str = buf.str off := by
  rw [string, Emit.lift] at h
  split at h
  · next h0 =>
    cases h
    exact ⟨h0, rfl⟩
  · cases h

theorem liftFault_copyTo_ok {n : ℕ} {bytes : List UInt8} {str : CStr n}
    (h : (liftFault (copyTo n bytes)).result = .ok str) : bytes = str.bytes := by
  cases hcopy : copyTo n bytes with
  | error f =>
    rw [hcopy] at h
    cases h
  | ok str' =>
    rw [hcopy] at h
    cases h
    exact copyTo_eq_ok_iff.mp hcopy

/-- A field that was read had a string that fits. -/
theorem readField_ok {n : ℕ} {str : CStr n} (h : (readField n buf off).result = .ok str) :
    0 ∈ buf.bytes.drop off ∧ (buf.str off).length < n := by
  obtain ⟨bytes, hstr, hcopy⟩ := Emit.bind_eq_ok_iff.mp h
  obtain ⟨h0, rfl⟩ := string_ok hstr
  refine ⟨h0, ?_⟩
  rw [liftFault_copyTo_ok hcopy]
  exact str.fits

theorem fits_serveSay (h : (serveSay mem s a buf drawn).result = .ok s') :
    ∀ cp ∈ sayCopies s a buf, cp.Fits buf := by
  obtain ⟨str, hstr, h⟩ := Emit.bind_eq_ok_iff.mp h
  obtain ⟨h0, rfl⟩ := string_ok hstr
  rw [sayCopies]
  cases hf : findChannelStr s.channels (buf.str offReqChannel) with
  | none =>
    rw [hf] at h
    obtain ⟨_, -, h⟩ := Emit.bind_eq_ok_iff.mp h
    cases h
  | some activeCh =>
    rw [hf] at h
    dsimp only at h
    split at h
    · cases h
    · obtain ⟨text, htext, -⟩ := Emit.bind_eq_ok_iff.mp h
      have hchannel : channelCopy.Fits buf :=
        (ok_channelCopy_iff.mpr (zero_mem_slice_of_found hf (by decide))).2
      have htext : textCopy.Fits buf := readField_ok htext
      rw [List.forall_mem_append, forall_mem_turns_iff]
      refine ⟨fun _ => by simp [hchannel, htext], List.forall_mem_cons.mpr ⟨hchannel, ?_⟩⟩
      split <;> simp [htext]

theorem fits_serveLeave (h : (serveLeave mem s a buf).result = .ok s') :
    ∀ cp ∈ leaveCopies s buf, cp.Fits buf := by
  obtain ⟨str, hstr, h⟩ := Emit.bind_eq_ok_iff.mp h
  obtain ⟨h0, rfl⟩ := string_ok hstr
  rw [leaveCopies]
  cases hf : findChannelStr s.channels (buf.str offReqChannel) with
  | none =>
    rw [hf] at h
    obtain ⟨_, herr, -⟩ := Emit.bind_eq_ok_iff.mp h
    rw [sendError] at herr
    split at herr
    · next hlt =>
      rw [List.length_append] at hlt
      refine List.forall_mem_singleton.mpr ⟨h0, ?_⟩
      show (buf.str offReqChannel).length < SAY_MAX - _
      omega
    · cases herr
  | some chnl => exact fun _ hcp => absurd hcp List.not_mem_nil

theorem fits_serveServJoin (h : (serveServJoin mem s a buf now).result = .ok s') :
    ∀ cp ∈ servJoinCopies s a buf, cp.Fits buf := by
  rw [serveServJoin] at h
  rw [servJoinCopies]
  cases hs : findServerAddress s.cnnctSrvrs a with
  | none => exact fun _ hcp => absurd hcp List.not_mem_nil
  | some srvr =>
    rw [hs] at h
    obtain ⟨name, hname, -⟩ := Emit.bind_eq_ok_iff.mp h
    have hchannel : channelCopy.Fits buf := readField_ok hname
    refine List.forall_mem_append.mpr ⟨?_, ?_⟩
    · split <;> simp [hchannel]
    · split <;> simp [hchannel]

theorem fits_serveServSay (h : (serveServSay mem s a buf).result = .ok s') :
    ∀ cp ∈ servSayCopies s buf, cp.Fits buf := by
  obtain ⟨u, hu, h⟩ := Emit.bind_eq_ok_iff.mp h
  obtain ⟨c, hc, h⟩ := Emit.bind_eq_ok_iff.mp h
  obtain ⟨t, ht, h⟩ := Emit.bind_eq_ok_iff.mp h
  obtain ⟨hu0, rfl⟩ := string_ok hu
  obtain ⟨hc0, rfl⟩ := string_ok hc
  obtain ⟨ht0, rfl⟩ := string_ok ht
  -- what was copied is a string of its own
  have hcopy : ∀ {n : ℕ} {bytes : List UInt8} {str : CStr n},
      (liftFault (copyTo n bytes)).result = .ok str → bytes.length < n :=
    fun hstr => (congrArg List.length (liftFault_copyTo_ok hstr)).trans_lt (CStr.fits _)
  rw [servSayCopies]
  cases hd : hasId s.recentIds buf.sayId with
  | error f => exact fun _ hcp => absurd hcp List.not_mem_nil
  | ok dup =>
    cases dup with
    | true =>
      rw [servSay_dup hd] at h
      obtain ⟨_, hname, -⟩ := Emit.bind_eq_ok_iff.mp h
      exact List.forall_mem_singleton.mpr ⟨hc0, hcopy hname⟩
    | false =>
      obtain ⟨ids, hids⟩ := exists_record_of_hasId hd
      rw [hids]
      cases hf : findChannelStr s.channels (buf.str offSayChannel) with
      | none => exact fun _ hcp => absurd hcp List.not_mem_nil
      | some active =>
        have hchannel : sayChannelCopy.Fits buf :=
          (ok_sayChannelCopy_iff.mpr (zero_mem_slice_of_found hf (by decide))).2
        rw [servSay_found hd hids hf] at h
        dsimp only
        split
        · exact List.forall_mem_singleton.mpr hchannel
        · next hshown =>
          rw [if_neg hshown] at h
          obtain ⟨_, huser, h⟩ := Emit.bind_eq_ok_iff.mp h
          obtain ⟨_, htext, -⟩ := Emit.bind_eq_ok_iff.mp h
          have hsayUser : sayUsernameCopy.Fits buf := ⟨hu0, hcopy huser⟩
          have hsayText : sayTextCopy.Fits buf := ⟨ht0, hcopy htext⟩
          simp [hchannel, hsayUser, hsayText]

/-- **What is handled to the end has fitted**: no copy went behind the room it had. -/
theorem fits_of_serve_ok (h : (serve mem s a buf drawn now).result = .ok s') :
    ∀ cp ∈ copies s a buf, cp.Fits buf := by
  rw [copies]
  split
  · next htype =>
    rw [serve_login htype] at h
    obtain ⟨u, hu, -⟩ := Emit.bind_eq_ok_iff.mp h
    exact List.forall_mem_singleton.mpr (readField_ok hu)
  split
  · next htype => exact fits_serveSay (by rwa [serve_say htype] at h)
  split
  · next htype =>
    rw [serve_join htype] at h
    obtain ⟨c, hc, -⟩ := Emit.bind_eq_ok_iff.mp h
    have hchannel : channelCopy.Fits buf := readField_ok hc
    rw [joinCopies]
    split <;> simp [hchannel]
  split
  · next htype =>
    rw [serve_who htype] at h
    obtain ⟨c, hc, -⟩ := Emit.bind_eq_ok_iff.mp h
    have hchannel : channelCopy.Fits buf := readField_ok hc
    have herror : whoErrorCopy.Fits buf := readField_ok hc
    rw [whoCopies]
    split <;> simp [hchannel, herror]
  split
  · next htype => exact fits_serveLeave (by rwa [serve_leave htype] at h)
  split
  · next htype => exact fits_serveServJoin (by rwa [serve_servJoin htype] at h)
  split
  · next htype => exact fits_serveServSay (by rwa [serve_servSay htype] at h)
  · exact fun _ hcp => absurd hcp List.not_mem_nil

end Rules

/-! ### Runs -/

/-- A server, with what its buffer holds. -/
structure Endpoint where
  server : ServerState
  receiveLine : ReceiveLine

/-- What happens to it: any bytes are received, and the scan and the pass are made. `mem` is what
`malloc` returns meanwhile. -/
inductive WireInput where
  | datagram (clientAddr : Sockaddr) (d : Received) (mem : Heap) (drawn : Id) (now : ℤ)
  | timeouts (now : ℤ)
  | renewal (now : ℤ)

namespace Endpoint

/-- The state in which `main` enters its loop; the buffer comes out of `malloc`. -/
def start (addrs : List Sockaddr) (unset now : ℤ) (unsetLine : ReceiveLine) : Endpoint :=
  ⟨ServerState.start addrs unset now, unsetLine⟩

/-- One input. Undefined behaviour has no next state. -/
def next (e : Endpoint) : WireInput → Option Endpoint
  | .datagram clientAddr d mem drawn now =>
      let buf := socketRecv e.receiveLine d
      (serve mem e.server clientAddr buf drawn now).result.toOption.map fun s => ⟨s, buf⟩
  | .timeouts now => (timeoutScan e.server now).result.toOption.map fun s => ⟨s, e.receiveLine⟩
  | .renewal now => (renewalPass e.server now).result.toOption.map fun s => ⟨s, e.receiveLine⟩

/-- The inputs that are taken, each with the server that takes it: all up to the one it stops at,
and that one too. -/
def steps : Endpoint → List WireInput → List (Endpoint × WireInput)
  | _, [] => []
  | e, i :: is =>
      (e, i) :: match e.next i with
        | none => []
        | some e => steps e is

/-- Every string that is copied out of the buffer ends in its field and fits where it goes. -/
def CopiesEnd (e : Endpoint) : WireInput → Prop
  | .datagram clientAddr d _ _ _ =>
      DuckChat.CopiesEnd e.server clientAddr (socketRecv e.receiveLine d)
  | _ => True

/-- The fields that a datagram needs end. -/
def Terminates (e : Endpoint) : WireInput → Prop
  | .datagram clientAddr d _ _ _ => DuckChat.Terminates e.server clientAddr e.receiveLine d
  | _ => True

theorem copiesEnd_iff (e : Endpoint) (i : WireInput) : e.CopiesEnd i ↔ e.Terminates i := by
  cases i with
  | datagram a d mem drawn now => exact DuckChat.copiesEnd_iff e.server a e.receiveLine d
  | timeouts now => exact Iff.rfl
  | renewal now => exact Iff.rfl

end Endpoint

/-- **Every string that is copied ends in its field** in the sequences of inputs in which every
datagram terminates its fields, and in no others. -/
theorem copiesEnd_steps_iff (addrs : List Sockaddr) (unset now : ℤ) (unsetLine : ReceiveLine)
    (is : List WireInput) :
    (∀ x ∈ (Endpoint.start addrs unset now unsetLine).steps is, x.1.CopiesEnd x.2) ↔
      ∀ x ∈ (Endpoint.start addrs unset now unsetLine).steps is, x.1.Terminates x.2 :=
  forall₂_congr fun x _ => x.1.copiesEnd_iff x.2

namespace Three

/-- A login with a name that fills its field. -/
def fullLogin : Received :=
  ⟨leBytes sizeofInt REQ_LOGIN ++ List.replicate USERNAME_MAX 97, by decide⟩

end Three

open Three in
/-- The name runs on behind its field. -/
theorem not_copiesEnd_fullLogin :
    ¬ ∀ (addrs : List Sockaddr) (unset now : ℤ) (unsetLine : ReceiveLine) (is : List WireInput),
        ∀ x ∈ (Endpoint.start addrs unset now unsetLine).steps is, x.1.CopiesEnd x.2 := by
  intro h
  have hstep : CopiesEnd (ServerState.start [] 0 0) (client 1)
      (socketRecv (ReceiveLine.fill 0) fullLogin) :=
    h [] 0 0 (ReceiveLine.fill 0) [.datagram (client 1) fullLogin (fun _ => 0) 0 0] _
      List.mem_cons_self
  have htype : (socketRecv (ReceiveLine.fill 0) fullLogin).reqType = REQ_LOGIN := by
    rw [reqType_socketRecv (by decide)]
    decide
  rw [CopiesEnd, copies, if_pos htype, List.forall_mem_singleton, ok_usernameCopy_iff,
    slice_socketRecv (by decide)] at hstep
  exact absurd hstep (by decide)

end DuckChat
