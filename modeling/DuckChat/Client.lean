import DuckChat.Sound

/-!
# The client (`client.c`)

A client sends a login and the join of Common when it starts, and then one turn of the loop of
`send_thread` for each line it reads. A turn is a function of what stands in `buff` as a C string.
Sending is the effect; the thread that prints what arrives changes nothing here.

`decode_input`, `get_command_arg` and the `send_…_req` functions are those of `helper_functions.c`.
How a line gets into `buff` is modelled in `Reader`. What the commands print, the arguments of
`main` and a `sendto` that fails are left out.

## Main definitions

* `Client`, `Client.start`, `firstRequests`
* `ClientMessage`, `Client.Sent` — what is sent
* `Client.turn` — the `switch` of `send_thread`
* `Line.isUsual` — a `/join`, `/leave` or `/switch` with a name of 1 to 31 bytes

## Main results

* `Client.sends_turn` — what a turn may send
* `Client.turn_cases` — what a usual line does to the joined channels, and what is sent for it
-/

set_option autoImplicit false

namespace DuckChat

def MAX_JOINED : ℕ := 32
def BUFSIZ : ℕ := 8192

/-- What stands in `buff`. -/
abbrev Line : Type := CStr BUFSIZ

/-- The locals of `send_thread`, and the flag `logout`. -/
structure Client where
  joinedChnls : Table Name MAX_JOINED
  activeChannel : Name
  logout : Bool
deriving DecidableEq

/-- The state in which `send_thread` enters its loop. -/
def Client.start : Client where
  joinedChnls := Table.ofList [common] (by decide)
  activeChannel := common
  logout := false

/-- What `main` sends before that. -/
def firstRequests (usrname : Username) : List ClientRequest := [.login usrname, .join common]

/-! ### Reading a line -/

/-- The codes of `decode_input`. -/
inductive InputKind where
  | say
  | join
  | list
  | who
  | leave
  | switch
  | logout
  | unknown
deriving DecidableEq

/-- `decode_input`. The comparisons stop at the length of the command, so anything may follow. -/
def decodeInput (inp : List UInt8) : InputKind :=
  if ¬ (ascii "/").isPrefixOf inp then .say
  else if (ascii "/join").isPrefixOf inp then .join
  else if (ascii "/list").isPrefixOf inp then .list
  else if (ascii "/who").isPrefixOf inp then .who
  else if (ascii "/leave").isPrefixOf inp then .leave
  else if (ascii "/switch").isPrefixOf inp then .switch
  else if (ascii "/exit").isPrefixOf inp then .logout
  else .unknown

/-- `get_command_arg`: what follows the first blank. Without one the length is 0 and the pointer is
one byte in front of the buffer. -/
def getCommandArg : List UInt8 → Option (List UInt8)
  | [] => none
  | b :: buf => if [b] = ascii " " then some buf else getCommandArg buf

/-- A copy into a field of `n` bytes. -/
def copyTo (n : ℕ) (bytes : List UInt8) : Except Fault (CStr n) :=
  if h : 0 ∉ bytes ∧ bytes.length < n then .ok ⟨bytes, h.1, h.2⟩ else .error (.store .above)

/-! ### Sending -/

/-- A string that fills a field of `n` bytes, without its terminator. -/
structure FullField (n : ℕ) where
  bytes : List UInt8
  noNul : 0 ∉ bytes
  fills : bytes.length = n

instance decidableEqFullField {n : ℕ} : DecidableEq (FullField n)
  | ⟨x, _, _⟩, ⟨y, _, _⟩ => decidable_of_iff (x = y) (by simp)

/-- What a client sends. A `/who` with a name of 32 bytes is sent, but it is no request: where its
name ends is up to what stands behind it where it arrives. -/
inductive ClientMessage where
  | request (rq : ClientRequest)
  | fullWho (reqChannel : FullField CHANNEL_MAX)
deriving DecidableEq

/-- The request, if it is one. -/
def ClientMessage.asRequest : ClientMessage → Option ClientRequest
  | .request rq => some rq
  | .fullWho _ => none

/-- The effect of a turn: what is sent, and a result or a fault. -/
abbrev ClientAct (α : Type) : Type := Emit ClientMessage Fault α

/-- `send_join_req`, with the new active channel. -/
def sendJoinReq (buff : List UInt8) (activeChannel : Name) : ClientAct Name :=
  match getCommandArg buff with
  | none => pure activeChannel
  | some chnl =>
      if chnl = [] then pure activeChannel
      else do
        let chnl ← Emit.lift (copyTo CHANNEL_MAX chnl)
        Emit.emit (.request (.join chnl))
        pure chnl

/-- `send_leave_req`, with the new active channel. The comparison with the active channel looks at
as many bytes as the argument has. -/
def sendLeaveReq (buff : List UInt8) (activeChannel : Name) : ClientAct Name :=
  match getCommandArg buff with
  | none => pure activeChannel
  | some chnl =>
      if chnl = [] then pure activeChannel
      else do
        let reqChannel ← Emit.lift (copyTo CHANNEL_MAX chnl)
        Emit.emit (.request (.leave reqChannel))
        pure (if chnl.isPrefixOf activeChannel.bytes then common else activeChannel)

/-- `send_say_req`. -/
def sendSayReq (activeChannel : Name) (buff : List UInt8) : ClientAct Unit := do
  let reqText ← Emit.lift (copyTo SAY_MAX buff)
  Emit.emit (.request (.say activeChannel reqText))

/-- `send_who_req`. `strncpy` leaves a name of 32 bytes without a terminator in the field. -/
def sendWhoReq (buff : List UInt8) : ClientAct Unit :=
  match getCommandArg buff with
  | none => pure ()
  | some chnl =>
      if chnl = [] then pure ()
      else if h : 0 ∉ chnl ∧ chnl.length = CHANNEL_MAX then
        Emit.emit (.fullWho ⟨chnl, h.1, h.2⟩)
      else do
        let reqChannel ← Emit.lift (copyTo CHANNEL_MAX chnl)
        Emit.emit (.request (.who reqChannel))

/-! ### The loop -/

namespace Client

/-- `case REQ_JOIN`. The argument is copied before its length is looked at. -/
def caseJoin (c : Client) (buff : List UInt8) : ClientAct Client := do
  let activeChannel ← sendJoinReq buff c.activeChannel
  match getCommandArg buff with
  | none => Emit.lift (.error .read)
  | some chnl => do
    let chnl ← Emit.lift (copyTo CHANNEL_MAX chnl)
    if chnl.bytes = [] then pure { c with activeChannel := activeChannel }
    else do
      let joinedChnls ← Emit.lift (store c.joinedChnls chnl)
      pure { c with joinedChnls := joinedChnls, activeChannel := activeChannel }

/-- `case REQ_LEAVE`: the entries behind the first match move down, and only then the counter. -/
def caseLeave (c : Client) (buff : List UInt8) : ClientAct Client :=
  match getCommandArg buff with
  | none => Emit.lift (.error .read)
  | some chnl => do
    let chnl ← Emit.lift (copyTo CHANNEL_MAX chnl)
    if chnl.bytes = [] then pure c
    else if c.joinedChnls.live.any (· == chnl) then do
      let activeChannel ← sendLeaveReq buff c.activeChannel
      pure { c with
        joinedChnls := c.joinedChnls.remove fun _ x => x == chnl
        activeChannel := activeChannel }
    else pure c

/-- `case REQ_SWITCH`. -/
def caseSwitch (c : Client) (buff : List UInt8) : Client :=
  match getCommandArg buff with
  | none => c
  | some chnl =>
      if chnl = [] then c
      else
        match c.joinedChnls.live.find? fun x => x.bytes == chnl with
        | none => c
        | some x => { c with activeChannel := x }

/-- One turn of the loop of `send_thread`. -/
def turn (c : Client) (buff : Line) : ClientAct Client :=
  if c.logout then pure c
  else
    match decodeInput buff.bytes with
    | .join => caseJoin c buff.bytes
    | .say => do
      sendSayReq c.activeChannel buff.bytes
      pure c
    | .list => do
      Emit.emit (.request .list)
      pure c
    | .who => do
      sendWhoReq buff.bytes
      pure c
    | .leave => caseLeave c buff.bytes
    | .switch => pure (caseSwitch c buff.bytes)
    | .logout => do
      Emit.emit (.request .logout)
      pure { c with logout := true }
    | .unknown => pure c

/-- The requests among what is sent in a turn. -/
def asks (c : Client) (buff : Line) : List ClientRequest :=
  (c.turn buff).out.filterMap ClientMessage.asRequest

/-- What a turn may send: for each command the message it makes of its argument. -/
inductive Sent (c : Client) (buff : Line) : ClientMessage → Prop
  | join {d : Name} (hk : decodeInput buff.bytes = .join)
      (harg : getCommandArg buff.bytes = some d.bytes) : c.Sent buff (.request (.join d))
  | say {t : SayText} (hk : decodeInput buff.bytes = .say) (ht : buff.bytes = t.bytes) :
      c.Sent buff (.request (.say c.activeChannel t))
  | list (hk : decodeInput buff.bytes = .list) : c.Sent buff (.request .list)
  | who {d : Name} (hk : decodeInput buff.bytes = .who)
      (harg : getCommandArg buff.bytes = some d.bytes) : c.Sent buff (.request (.who d))
  | fullWho {f : FullField CHANNEL_MAX} (hk : decodeInput buff.bytes = .who)
      (harg : getCommandArg buff.bytes = some f.bytes) : c.Sent buff (.fullWho f)
  | leave {d : Name} (hk : decodeInput buff.bytes = .leave)
      (harg : getCommandArg buff.bytes = some d.bytes) : c.Sent buff (.request (.leave d))
  | logout (hk : decodeInput buff.bytes = .logout) : c.Sent buff (.request .logout)

end Client

/-! ### Joins, leaves and switches -/

/-- The line is a `/join`, a `/leave` or a `/switch` with a name of 1 to 31 bytes. -/
def Line.isUsual (buff : Line) : Bool :=
  decodeInput buff.bytes ∈ [InputKind.join, .leave, .switch] ∧
    (getCommandArg buff.bytes).any fun chnl => 1 ≤ chnl.length ∧ chnl.length < CHANNEL_MAX

section Rules

variable {c : Client} {buff : Line} {chnl : List UInt8} {d : Name}

theorem mem_of_getCommandArg {buf : List UInt8} (h : getCommandArg buf = some chnl) {b : UInt8}
    (hb : b ∈ chnl) : b ∈ buf := by
  induction buf with
  | nil => cases h
  | cons x buf ih =>
    rw [getCommandArg] at h
    split at h
    · cases h
      exact List.mem_cons_of_mem _ hb
    · exact List.mem_cons_of_mem _ (ih h)

theorem copyTo_bytes {n : ℕ} (d : CStr n) : copyTo n d.bytes = .ok d := by
  rw [copyTo, dif_pos ⟨d.noNul, d.fits⟩]

theorem copyTo_eq_ok_iff {n : ℕ} {bytes : List UInt8} {str : CStr n} :
    copyTo n bytes = .ok str ↔ bytes = str.bytes := by
  constructor
  · intro h
    rw [copyTo] at h
    split at h
    · cases h
      rfl
    · cases h
  · rintro rfl
    exact copyTo_bytes str

/-- The argument of a usual line is a channel name. -/
theorem Line.exists_name (h : buff.isUsual) :
    decodeInput buff.bytes ∈ [InputKind.join, .leave, .switch] ∧
      ∃ d : Name, getCommandArg buff.bytes = some d.bytes ∧ d.bytes ≠ [] := by
  obtain ⟨hk, harg⟩ := of_decide_eq_true h
  obtain ⟨chnl, hchnl, hlen⟩ := (Option.any_eq_true ..).mp harg
  obtain ⟨hpos, hlt⟩ := of_decide_eq_true hlen
  refine ⟨hk, ⟨chnl, fun h0 => buff.noNul (mem_of_getCommandArg hchnl h0), hlt⟩, hchnl, ?_⟩
  exact List.length_pos_iff.mp hpos

namespace Client

theorem caseJoin_eq (h : getCommandArg buff.bytes = some d.bytes) (hd : d.bytes ≠ []) :
    c.caseJoin buff.bytes = ⟨[.request (.join d)], (store c.joinedChnls d).map fun joinedChnls =>
      { c with joinedChnls := joinedChnls, activeChannel := d }⟩ := by
  rw [caseJoin, sendJoinReq, h]
  simp only [if_neg hd, copyTo_bytes, Emit.lift_eq, Emit.mk_ok_bind, Emit.emit_bind,
    List.nil_append, Emit.pure_eq]
  cases store c.joinedChnls d <;> rfl

theorem caseLeave_eq (h : getCommandArg buff.bytes = some d.bytes) (hd : d.bytes ≠ []) :
    c.caseLeave buff.bytes =
      if d ∈ c.joinedChnls.live then ⟨[.request (.leave d)], .ok { c with
        joinedChnls := c.joinedChnls.remove fun _ x => x == d
        activeChannel := if d.bytes.isPrefixOf c.activeChannel.bytes then common
          else c.activeChannel }⟩
      else ⟨[], .ok c⟩ := by
  have hany : (c.joinedChnls.live.any (· == d) = true) ↔ d ∈ c.joinedChnls.live := by
    simp
  rw [caseLeave, sendLeaveReq, h]
  simp only [if_neg hd, copyTo_bytes, Emit.lift_eq, Emit.mk_ok_bind, Emit.emit_bind,
    List.nil_append, Emit.pure_eq, List.append_nil, hany]

/-! Nothing follows the blank. -/

theorem caseJoin_nil (h : getCommandArg buff.bytes = some []) :
    c.caseJoin buff.bytes = ⟨[], .ok c⟩ := by
  rw [caseJoin, sendJoinReq, h]
  rfl

theorem caseLeave_nil (h : getCommandArg buff.bytes = some []) :
    c.caseLeave buff.bytes = ⟨[], .ok c⟩ := by
  rw [caseLeave, h]
  rfl

theorem caseSwitch_joinedChnls (buf : List UInt8) :
    (c.caseSwitch buf).joinedChnls = c.joinedChnls ∧ (c.caseSwitch buf).logout = c.logout := by
  rw [caseSwitch]
  split
  · exact ⟨rfl, rfl⟩
  · split
    · exact ⟨rfl, rfl⟩
    · split <;> exact ⟨rfl, rfl⟩

/-! What is sent in a turn. -/

theorem sends_caseJoin (hk : decodeInput buff.bytes = .join) :
    (c.caseJoin buff.bytes).Sends (c.Sent buff) := by
  have hreq : (sendJoinReq buff.bytes c.activeChannel).Sends (c.Sent buff) := by
    rw [sendJoinReq]
    split
    · exact Emit.sends_pure _
    · next chnl harg =>
      split
      · exact Emit.sends_pure _
      · refine (Emit.sends_lift _).bind fun d hd => (Emit.sends_emit ?_).bind fun _ _ =>
          Emit.sends_pure _
        exact .join hk (harg.trans (congrArg some (copyTo_eq_ok_iff.mp hd)))
  refine hreq.bind fun ch _ => ?_
  split
  · exact Emit.sends_lift _
  · refine (Emit.sends_lift _).bind fun d _ => ?_
    split
    · exact Emit.sends_pure _
    · exact (Emit.sends_lift _).bind fun _ _ => Emit.sends_pure _

theorem sends_caseLeave (hk : decodeInput buff.bytes = .leave) :
    (c.caseLeave buff.bytes).Sends (c.Sent buff) := by
  have hreq : (sendLeaveReq buff.bytes c.activeChannel).Sends (c.Sent buff) := by
    rw [sendLeaveReq]
    split
    · exact Emit.sends_pure _
    · next chnl harg =>
      split
      · exact Emit.sends_pure _
      · refine (Emit.sends_lift _).bind fun d hd => (Emit.sends_emit ?_).bind fun _ _ =>
          Emit.sends_pure _
        exact .leave hk (harg.trans (congrArg some (copyTo_eq_ok_iff.mp hd)))
  rw [caseLeave]
  split
  · exact Emit.sends_lift _
  · refine (Emit.sends_lift _).bind fun d _ => ?_
    split
    · exact Emit.sends_pure _
    · split
      · exact hreq.bind fun _ _ => Emit.sends_pure _
      · exact Emit.sends_pure _

theorem sends_sendWhoReq (hk : decodeInput buff.bytes = .who) :
    (sendWhoReq buff.bytes).Sends (c.Sent buff) := by
  rw [sendWhoReq]
  split
  · exact Emit.sends_pure _
  · next chnl harg =>
    split
    · exact Emit.sends_pure _
    · split
      · exact Emit.sends_emit (.fullWho hk harg)
      · refine (Emit.sends_lift _).bind fun d hd => Emit.sends_emit ?_
        exact .who hk (harg.trans (congrArg some (copyTo_eq_ok_iff.mp hd)))

/-- **What a turn sends** is what its command makes of the argument, also if it ends with a
fault. -/
theorem sends_turn (c : Client) (buff : Line) : (c.turn buff).Sends (c.Sent buff) := by
  rw [turn]
  split
  · exact Emit.sends_pure _
  · cases hk : decodeInput buff.bytes with
    | join => exact sends_caseJoin hk
    | say =>
      refine Emit.Sends.bind ?_ fun _ _ => Emit.sends_pure _
      exact (Emit.sends_lift _).bind fun t ht =>
        Emit.sends_emit (.say hk (copyTo_eq_ok_iff.mp ht))
    | list => exact (Emit.sends_emit (.list hk)).bind fun _ _ => Emit.sends_pure _
    | who => exact (sends_sendWhoReq hk).bind fun _ _ => Emit.sends_pure _
    | leave => exact sends_caseLeave hk
    | switch => exact Emit.sends_pure _
    | logout => exact (Emit.sends_emit (.logout hk)).bind fun _ _ => Emit.sends_pure _
    | unknown => exact Emit.sends_pure _

/-- **A usual line**: a join is sent and its channel appended; a leave is sent for a channel that is
in the list, and its first occurrence goes; or nothing is sent. -/
theorem turn_cases (hl : c.logout = false) (h0 : 0 ≤ c.joinedChnls.count) (hu : buff.isUsual) :
    (∃ f, (c.turn buff).result = .error f ∧ f.Overrun) ∨
      ∃ c', (c.turn buff).result = .ok c' ∧ c'.logout = false ∧ 0 ≤ c'.joinedChnls.count ∧
        ((∃ d, (c.turn buff).out = [.request (.join d)] ∧
            c'.joinedChnls.live = c.joinedChnls.live ++ [d]) ∨
          (∃ d ∈ c.joinedChnls.live, (c.turn buff).out = [.request (.leave d)] ∧
            c'.joinedChnls.live = c.joinedChnls.live.erase d) ∨
          ((c.turn buff).out = [] ∧ c'.joinedChnls.live = c.joinedChnls.live)) := by
  obtain ⟨hk, d, harg, hd⟩ := Line.exists_name hu
  rw [turn, if_neg (ne_true_of_eq_false hl)]
  cases hkind : decodeInput buff.bytes with
  | join =>
    simp only
    rw [caseJoin_eq harg hd]
    have hst := safe_store d h0
    cases hs : store c.joinedChnls d with
    | error f =>
      rw [hs] at hst
      exact Or.inl ⟨f, rfl, hst⟩
    | ok t =>
      rw [hs] at hst
      obtain ⟨hlive, hcount⟩ := hst
      refine Or.inr ⟨_, rfl, hl, ?_, Or.inl ⟨d, rfl, hlive⟩⟩
      show 0 ≤ t.count
      omega
  | leave =>
    simp only
    rw [caseLeave_eq harg hd]
    split
    · next hmem =>
      have hlive := Table.live_remove_of_mem (p := (· == d)) hmem (by simp)
      refine Or.inr ⟨_, rfl, hl, ?_, Or.inr (Or.inl ⟨d, hmem, rfl, ?_⟩)⟩
      · have hpos := Table.count_pos_of_mem hmem
        show 0 ≤ (c.joinedChnls.remove _).count
        rw [Table.count_remove]
        omega
      · rw [List.erase_eq_eraseP']
        exact hlive
    · exact Or.inr ⟨c, rfl, hl, h0, Or.inr (Or.inr ⟨rfl, rfl⟩)⟩
  | switch =>
    obtain ⟨hj, hlog⟩ := caseSwitch_joinedChnls (c := c) buff.bytes
    refine Or.inr ⟨_, rfl, hlog.trans hl, ?_, Or.inr (Or.inr ⟨rfl, ?_⟩)⟩
    · rw [hj]
      exact h0
    · rw [hj]
  | say => simp [hkind] at hk
  | list => simp [hkind] at hk
  | who => simp [hkind] at hk
  | logout => simp [hkind] at hk
  | unknown => simp [hkind] at hk

/-- The same, with the requests alone. -/
theorem asks_cases (hl : c.logout = false) (h0 : 0 ≤ c.joinedChnls.count) (hu : buff.isUsual) :
    (∃ f, (c.turn buff).result = .error f ∧ f.Overrun) ∨
      ∃ c', (c.turn buff).result = .ok c' ∧ c'.logout = false ∧ 0 ≤ c'.joinedChnls.count ∧
        ((∃ d, c.asks buff = [.join d] ∧ c'.joinedChnls.live = c.joinedChnls.live ++ [d]) ∨
          (∃ d ∈ c.joinedChnls.live, c.asks buff = [.leave d] ∧
            c'.joinedChnls.live = c.joinedChnls.live.erase d) ∨
          (c.asks buff = [] ∧ c'.joinedChnls.live = c.joinedChnls.live)) := by
  rcases turn_cases hl h0 hu with ho | ⟨c', hr, hlog, hcount, hk⟩
  · exact Or.inl ho
  refine Or.inr ⟨c', hr, hlog, hcount, ?_⟩
  simp only [asks]
  rcases hk with ⟨d, ho, hlive⟩ | ⟨d, hd, ho, hlive⟩ | ⟨ho, hlive⟩
  · exact Or.inl ⟨d, by rw [ho]; rfl, hlive⟩
  · exact Or.inr (Or.inl ⟨d, hd, by rw [ho]; rfl, hlive⟩)
  · exact Or.inr (Or.inr ⟨by rw [ho]; rfl, hlive⟩)

end Client

end Rules

end DuckChat
