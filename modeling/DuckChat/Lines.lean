import DuckChat.Speaking

/-!
# Strings copied out of a line

`get_command_arg` returns a pointer into the line and the length of what follows it. The length is
what `strncpy` is given for its bound, so it bounds nothing, and without a blank in the line the
pointer is one byte in front of the buffer. `case REQ_JOIN` and `case REQ_LEAVE` copy from it before
they look at the length.

## Main definitions

* `commandArg` — `get_command_arg`, with the pointer it returns
* `LineCopy`, `lineCopies` — the copies that are made for a line, command by command
* `LineFits` — the lines that are short enough
* `FillsWho` — a `/who` whose name fills its field

## Main results

* `commandArg_eq` — the pointer and the length stand for the argument
* `lineSafe_iff` — every line, in every state
* `exists_turn_ok_iff` — these, and a `/who` that fills its field, are the lines on which a turn of
  the model ends well
-/

set_option autoImplicit false

namespace DuckChat

/-! ### The argument -/

/-- The loop of `get_command_arg`, from index `i` on: `chnl_start`, and the index where it ends. -/
def commandArgLoop : List UInt8 → ℕ → ℤ → ℤ × ℕ
  | [], i, chnlStart => (chnlStart, i)
  | b :: buf, i, chnlStart =>
      if [b] = ascii " " ∧ chnlStart = -1 then commandArgLoop buf (i + 1) (i + 1)
      else commandArgLoop buf (i + 1) chnlStart

/-- `get_command_arg`: the index it points to, and `chnl_len`. -/
def commandArg (buf : List UInt8) : ℤ × ℕ :=
  let (chnlStart, i) := commandArgLoop buf 0 (-1)
  if chnlStart < 0 then (chnlStart, 0) else (chnlStart, (i - chnlStart).toNat)

section Argument

variable {buf chnl : List UInt8} {i k : ℕ}

/-- Once it is set, `chnl_start` stays. -/
theorem commandArgLoop_of_nonneg (buf : List UInt8) (i k : ℕ) :
    commandArgLoop buf i k = (↑k, i + buf.length) := by
  induction buf generalizing i with
  | nil => rfl
  | cons b buf ih =>
    rw [commandArgLoop, if_neg (by omega), ih, List.length_cons, Nat.add_right_comm, Nat.add_assoc]

theorem commandArgLoop_eq (buf : List UInt8) (i : ℕ) :
    commandArgLoop buf i (-1) =
      match getCommandArg buf with
      | none => (-1, i + buf.length)
      | some chnl => (↑(i + buf.length - chnl.length), i + buf.length) := by
  induction buf generalizing i with
  | nil => rfl
  | cons b buf ih =>
    rw [commandArgLoop, getCommandArg]
    by_cases hb : [b] = ascii " "
    · have hstart : commandArgLoop buf (i + 1) ((i : ℤ) + 1) =
          (↑(i + 1), i + 1 + buf.length) := by
        exact_mod_cast commandArgLoop_of_nonneg buf (i + 1) (i + 1)
      rw [if_pos ⟨hb, rfl⟩, if_pos hb, hstart, List.length_cons]
      simp only [Prod.mk.injEq]
      omega
    · rw [if_neg fun h => hb h.1, if_neg hb, ih, List.length_cons, Nat.add_right_comm i 1,
        Nat.add_assoc]

theorem length_getCommandArg_lt (h : getCommandArg buf = some chnl) : chnl.length < buf.length := by
  induction buf with
  | nil => cases h
  | cons b buf ih =>
    rw [getCommandArg] at h
    split at h
    · cases h
      exact Nat.lt_succ_self _
    · exact Nat.lt_succ_of_lt (ih h)

/-- **The pointer and the length**: without a blank they are -1 and 0, and else they stand for what
follows the first one, up to the end of the line. -/
theorem commandArg_eq (buf : List UInt8) :
    commandArg buf =
      match getCommandArg buf with
      | none => (-1, 0)
      | some chnl => (↑(buf.length - chnl.length), chnl.length) := by
  rw [commandArg, commandArgLoop_eq]
  cases h : getCommandArg buf with
  | none => rfl
  | some chnl =>
    have hlt := length_getCommandArg_lt h
    simp only [Nat.zero_add]
    rw [if_neg (by omega), Prod.mk.injEq]
    exact ⟨rfl, by omega⟩

end Argument

/-! ### Copies -/

/-- Where a copy starts: at an index of the line, or at a string of the client's own. -/
inductive Source where
  | line (i : ℤ)
  | own
deriving DecidableEq

/-- A copy: the bytes in front of the terminator, and the room where they go. -/
structure LineCopy where
  src : Source
  len : ℕ
  room : ℕ
deriving DecidableEq

namespace LineCopy

/-- What is copied from the line is in its buffer, up to the terminator. -/
def Inside (cp : LineCopy) : Prop :=
  match cp.src with
  | .line i => 0 ≤ i ∧ i + cp.len < BUFSIZ
  | .own => True

/-- There is room for the bytes and the terminator. -/
def Fits (cp : LineCopy) : Prop := cp.len < cp.room

end LineCopy

section Copies

variable (c : Client) (buff : List UInt8)

/-- A copy of the argument to a field for a channel. In front of the buffer its length is not known
to the code; 0 is what `get_command_arg` reports. -/
def argCopy : LineCopy := ⟨.line (commandArg buff).1, (commandArg buff).2, CHANNEL_MAX⟩

/-- A copy of a name to a field for a channel. -/
def nameCopy (x : Name) : LineCopy := ⟨.own, x.bytes.length, CHANNEL_MAX⟩

/-- `send_join_req`: to the request, and to `active_channel`. -/
def sendJoinReqCopies : List LineCopy :=
  if (commandArg buff).2 = 0 then [] else [argCopy buff, argCopy buff]

/-- The room at `joined_chnls[joined_len]`. -/
def joinedRoom : ℕ :=
  if 0 ≤ c.joinedChnls.count ∧ c.joinedChnls.count < MAX_JOINED then CHANNEL_MAX else 0

/-- `case REQ_JOIN`: to `chnl`, and from there to `joined_chnls`. -/
def caseJoinCopies : List LineCopy :=
  sendJoinReqCopies buff ++ argCopy buff ::
    if 0 < (commandArg buff).2 then [⟨.own, (commandArg buff).2, joinedRoom c⟩] else []

/-- `send_say_req`. -/
def sendSayReqCopies : List LineCopy :=
  [nameCopy c.activeChannel, ⟨.line 0, buff.length, SAY_MAX⟩]

/-- `send_who_req`. -/
def sendWhoReqCopies : List LineCopy :=
  if (commandArg buff).2 = 0 then [] else [argCopy buff]

/-- The loop of `case REQ_LEAVE`: the match goes to `leave_chnl`, and the entries behind it move
down. -/
def leaveLoopCopies (chnl : List UInt8) : Bool → List Name → List LineCopy
  | _, [] => []
  | true, x :: xs => nameCopy x :: leaveLoopCopies chnl true xs
  | false, x :: xs =>
      if x.bytes = chnl then nameCopy x :: leaveLoopCopies chnl true xs
      else leaveLoopCopies chnl false xs

/-- `send_leave_req`. -/
def sendLeaveReqCopies : List LineCopy :=
  if (commandArg buff).2 = 0 then []
  else argCopy buff ::
    if ((getCommandArg buff).getD []).isPrefixOf c.activeChannel.bytes then [nameCopy common]
    else []

/-- `case REQ_LEAVE`. -/
def caseLeaveCopies : List LineCopy :=
  let chnl := (getCommandArg buff).getD []
  argCopy buff ::
    if (commandArg buff).2 = 0 then []
    else
      leaveLoopCopies chnl false c.joinedChnls.live ++
        if c.joinedChnls.live.any (fun x => x.bytes = chnl) then sendLeaveReqCopies c buff else []

/-- `case REQ_SWITCH`. -/
def caseSwitchCopies : List LineCopy :=
  if (commandArg buff).2 = 0 then []
  else (c.joinedChnls.live.filter fun x => x.bytes = (getCommandArg buff).getD []).map nameCopy

/-- The copies of one turn of `send_thread`. -/
def lineCopies : List LineCopy :=
  match decodeInput buff with
  | .join => caseJoinCopies c buff
  | .say => sendSayReqCopies c buff
  | .who => sendWhoReqCopies buff
  | .leave => caseLeaveCopies c buff
  | .switch => caseSwitchCopies c buff
  | .list => []
  | .logout => []
  | .unknown => []

/-- Every copy starts and ends in the line, or at a string of the client's own, and fits. -/
def LineSafe : Prop := ∀ cp ∈ lineCopies c buff, cp.Inside ∧ cp.Fits

/-- A say is shorter than a text. The argument of a join, a leave or a who is shorter than a channel
name; a join and a leave have one, if an empty one; and what is joined has an entry left for it. -/
def LineFits : Prop :=
  match decodeInput buff with
  | .say => buff.length < SAY_MAX
  | .join => ∃ chnl ∈ getCommandArg buff, chnl.length < CHANNEL_MAX ∧
      (chnl ≠ [] → 0 ≤ c.joinedChnls.count ∧ c.joinedChnls.count < MAX_JOINED)
  | .who => ∀ chnl ∈ getCommandArg buff, chnl.length < CHANNEL_MAX
  | .leave => ∃ chnl ∈ getCommandArg buff, chnl.length < CHANNEL_MAX
  | _ => True

end Copies

section Rules

variable {c : Client} {buff : Line} {chnl : List UInt8}

theorem nameCopy_ok (x : Name) : (nameCopy x).Inside ∧ (nameCopy x).Fits := ⟨trivial, x.fits⟩

/-- A copy of an argument. -/
theorem argCopy_ok_iff :
    ((argCopy buff.bytes).Inside ∧ (argCopy buff.bytes).Fits) ↔
      ∃ chnl ∈ getCommandArg buff.bytes, chnl.length < CHANNEL_MAX := by
  rw [argCopy, commandArg_eq]
  cases h : getCommandArg buff.bytes with
  | none => simp [LineCopy.Inside]
  | some chnl =>
    have hlt := length_getCommandArg_lt h
    have hfits := buff.fits
    have hsum : ((buff.bytes.length - chnl.length : ℕ) : ℤ) + (chnl.length : ℕ) < BUFSIZ := by
      omega
    rw [and_iff_right ⟨Int.natCast_nonneg _, hsum⟩]
    simp [LineCopy.Fits]

theorem leaveLoopCopies_ok (move : Bool) (xs : List Name) :
    ∀ cp ∈ leaveLoopCopies chnl move xs, cp.Inside ∧ cp.Fits := by
  induction xs generalizing move with
  | nil =>
    cases move <;> exact fun _ hcp => absurd hcp List.not_mem_nil
  | cons x xs ih =>
    cases move with
    | true => exact List.forall_mem_cons.mpr ⟨nameCopy_ok x, ih true⟩
    | false =>
      rw [leaveLoopCopies]
      split
      · exact List.forall_mem_cons.mpr ⟨nameCopy_ok x, ih true⟩
      · exact ih false

/-- The length that is reported is 0 where there is no blank, and where nothing follows it. -/
theorem commandArg_len_eq_zero_iff (buf : List UInt8) :
    (commandArg buf).2 = 0 ↔ ∀ chnl ∈ getCommandArg buf, chnl = [] := by
  rw [commandArg_eq]
  cases getCommandArg buf with
  | none => simp
  | some chnl => simp

/-! One lemma for each command. -/

theorem caseJoinCopies_ok_iff :
    (∀ cp ∈ caseJoinCopies c buff.bytes, cp.Inside ∧ cp.Fits) ↔
      ∃ chnl ∈ getCommandArg buff.bytes, chnl.length < CHANNEL_MAX ∧
        (chnl ≠ [] → 0 ≤ c.joinedChnls.count ∧ c.joinedChnls.count < MAX_JOINED) := by
  rw [caseJoinCopies, List.forall_mem_append, List.forall_mem_cons, argCopy_ok_iff]
  constructor
  · rintro ⟨-, ⟨chnl, harg, hlen⟩, hstore⟩
    refine ⟨chnl, harg, hlen, fun hne => ?_⟩
    have hpos : 0 < (commandArg buff.bytes).2 :=
      Nat.pos_of_ne_zero fun h0 => hne ((commandArg_len_eq_zero_iff _).mp h0 chnl harg)
    rw [if_pos hpos, List.forall_mem_singleton] at hstore
    have hroom : (commandArg buff.bytes).2 < joinedRoom c := hstore.2
    rw [joinedRoom] at hroom
    split at hroom
    · next hcount => exact hcount
    · exact absurd hroom (Nat.not_lt_zero _)
  · rintro ⟨chnl, harg, hlen, hcount⟩
    refine ⟨?_, ⟨chnl, harg, hlen⟩, ?_⟩
    · -- the two copies of `send_join_req` are the one that follows it
      intro cp hcp
      have hcp : cp = argCopy buff.bytes := by
        rw [sendJoinReqCopies] at hcp
        split at hcp
        · cases hcp
        · simpa using hcp
      rw [hcp, argCopy_ok_iff]
      exact ⟨chnl, harg, hlen⟩
    · split
      · next hpos =>
        have hlen' : (commandArg buff.bytes).2 = chnl.length := by
          rw [commandArg_eq, harg]
        have hne : chnl ≠ [] := List.ne_nil_of_length_pos (hlen' ▸ hpos)
        rw [List.forall_mem_singleton]
        refine ⟨trivial, ?_⟩
        show (commandArg buff.bytes).2 < joinedRoom c
        rw [hlen', joinedRoom, if_pos (hcount hne)]
        exact hlen
      · exact List.forall_mem_nil _

theorem sendSayReqCopies_ok_iff :
    (∀ cp ∈ sendSayReqCopies c buff.bytes, cp.Inside ∧ cp.Fits) ↔
      buff.bytes.length < SAY_MAX := by
  have hin : (0 : ℤ) + (buff.bytes.length : ℕ) < BUFSIZ := by
    have := buff.fits
    omega
  rw [sendSayReqCopies, List.forall_mem_cons, and_iff_right (nameCopy_ok _),
    List.forall_mem_singleton]
  exact and_iff_right ⟨le_rfl, hin⟩

theorem sendWhoReqCopies_ok_iff :
    (∀ cp ∈ sendWhoReqCopies buff.bytes, cp.Inside ∧ cp.Fits) ↔
      ∀ chnl ∈ getCommandArg buff.bytes, chnl.length < CHANNEL_MAX := by
  rw [sendWhoReqCopies]
  split
  · next h0 =>
    refine iff_of_true (List.forall_mem_nil _) fun chnl harg => ?_
    rw [(commandArg_len_eq_zero_iff _).mp h0 chnl harg]
    decide
  · next h0 =>
    rw [List.forall_mem_singleton, argCopy_ok_iff]
    cases harg : getCommandArg buff.bytes with
    | none => exact absurd ((commandArg_len_eq_zero_iff _).mpr (by simp [harg])) h0
    | some chnl => simp

theorem caseLeaveCopies_ok_iff :
    (∀ cp ∈ caseLeaveCopies c buff.bytes, cp.Inside ∧ cp.Fits) ↔
      ∃ chnl ∈ getCommandArg buff.bytes, chnl.length < CHANNEL_MAX := by
  rw [caseLeaveCopies, List.forall_mem_cons, argCopy_ok_iff]
  refine and_iff_left_of_imp fun harg => ?_
  split
  · exact List.forall_mem_nil _
  · rw [List.forall_mem_append]
    refine ⟨leaveLoopCopies_ok _ _, ?_⟩
    split
    · rw [sendLeaveReqCopies]
      split
      · exact List.forall_mem_nil _
      · refine List.forall_mem_cons.mpr ⟨argCopy_ok_iff.mpr harg, ?_⟩
        split
        · exact List.forall_mem_singleton.mpr (nameCopy_ok _)
        · exact List.forall_mem_nil _
    · exact List.forall_mem_nil _

/-- What `case REQ_SWITCH` copies is on the list already. -/
theorem caseSwitchCopies_ok (buf : List UInt8) :
    ∀ cp ∈ caseSwitchCopies c buf, cp.Inside ∧ cp.Fits := by
  rw [caseSwitchCopies]
  split
  · exact List.forall_mem_nil _
  · intro cp hcp
    obtain ⟨x, -, rfl⟩ := List.mem_map.mp hcp
    exact nameCopy_ok x

/-- **The lines that are handled safely** are the short ones: the length of what is copied is
compared with the room for it nowhere. -/
theorem lineSafe_iff (c : Client) (buff : Line) :
    LineSafe c buff.bytes ↔ LineFits c buff.bytes := by
  rw [LineSafe, LineFits, lineCopies]
  cases decodeInput buff.bytes with
  | join => exact caseJoinCopies_ok_iff
  | say => exact sendSayReqCopies_ok_iff
  | who => exact sendWhoReqCopies_ok_iff
  | leave => exact caseLeaveCopies_ok_iff
  | switch => exact iff_of_true (caseSwitchCopies_ok buff.bytes) trivial
  | list => exact iff_of_true (List.forall_mem_nil _) trivial
  | logout => exact iff_of_true (List.forall_mem_nil _) trivial
  | unknown => exact iff_of_true (List.forall_mem_nil _) trivial

/-! ### The model's turn -/

/-- What follows a blank in a line is a channel name if it is short. -/
theorem exists_name_of_length_lt (harg : getCommandArg buff.bytes = some chnl)
    (hlen : chnl.length < CHANNEL_MAX) : ∃ d : Name, d.bytes = chnl :=
  ⟨⟨chnl, fun h0 => buff.noNul (mem_of_getCommandArg harg h0), hlen⟩, rfl⟩

theorem exists_copyTo_iff {n : ℕ} {bytes : List UInt8} (h0 : 0 ∉ bytes) :
    (∃ str, copyTo n bytes = .ok str) ↔ bytes.length < n := by
  constructor
  · rintro ⟨str, hstr⟩
    rw [copyTo_eq_ok_iff.mp hstr]
    exact str.fits
  · intro hlen
    exact ⟨⟨bytes, h0, hlen⟩, copyTo_eq_ok_iff.mpr rfl⟩

theorem exists_caseJoin_iff :
    (∃ c', (c.caseJoin buff.bytes).result = .ok c') ↔
      ∃ chnl ∈ getCommandArg buff.bytes, chnl.length < CHANNEL_MAX ∧
        (chnl ≠ [] → 0 ≤ c.joinedChnls.count ∧ c.joinedChnls.count < MAX_JOINED) := by
  constructor
  · rintro ⟨c', h⟩
    obtain ⟨d, harg⟩ := Client.exists_arg_caseJoin h
    refine ⟨d.bytes, harg, d.fits, fun hne => ?_⟩
    rw [Client.caseJoin_eq harg hne] at h
    cases hst : store c.joinedChnls d with
    | error f =>
      rw [hst] at h
      cases h
    | ok t =>
      obtain ⟨h0, hlt, -⟩ := store_eq_ok_iff.mp hst
      exact ⟨h0, hlt⟩
  · rintro ⟨chnl, harg, hlen, hcount⟩
    obtain ⟨d, rfl⟩ := exists_name_of_length_lt harg hlen
    by_cases hd : d.bytes = []
    · rw [Client.caseJoin_nil (hd ▸ harg)]
      exact ⟨c, rfl⟩
    · obtain ⟨t, ht⟩ := exists_store d (hcount hd).1 (hcount hd).2
      rw [Client.caseJoin_eq harg hd, ht]
      exact ⟨_, rfl⟩

theorem exists_caseLeave_iff :
    (∃ c', (c.caseLeave buff.bytes).result = .ok c') ↔
      ∃ chnl ∈ getCommandArg buff.bytes, chnl.length < CHANNEL_MAX := by
  constructor
  · rintro ⟨c', h⟩
    obtain ⟨d, harg⟩ := Client.exists_arg_caseLeave h
    exact ⟨d.bytes, harg, d.fits⟩
  · rintro ⟨chnl, harg, hlen⟩
    obtain ⟨d, rfl⟩ := exists_name_of_length_lt harg hlen
    by_cases hd : d.bytes = []
    · rw [Client.caseLeave_nil (hd ▸ harg)]
      exact ⟨c, rfl⟩
    · rw [Client.caseLeave_eq harg hd]
      split <;> exact ⟨_, rfl⟩

theorem exists_sendSayReq_iff (d : Name) :
    (∃ r, (sendSayReq d buff.bytes).result = .ok r) ↔ buff.bytes.length < SAY_MAX := by
  rw [← exists_copyTo_iff buff.noNul, sendSayReq]
  cases copyTo SAY_MAX buff.bytes with
  | error f => simp
  | ok t => simp [Emit.emit]

theorem exists_sendWhoReq_iff :
    (∃ r, (sendWhoReq buff.bytes).result = .ok r) ↔
      ∀ chnl ∈ getCommandArg buff.bytes, chnl.length ≤ CHANNEL_MAX := by
  rw [sendWhoReq]
  cases harg : getCommandArg buff.bytes with
  | none => simp
  | some chnl =>
    by_cases hne : chnl = []
    · subst hne
      simp [CHANNEL_MAX]
    · have h0 : 0 ∉ chnl := fun h0 => buff.noNul (mem_of_getCommandArg harg h0)
      simp only [if_neg hne, Option.mem_some_iff, forall_eq']
      by_cases hfull : chnl.length = CHANNEL_MAX
      · rw [dif_pos ⟨h0, hfull⟩]
        exact iff_of_true ⟨(), rfl⟩ hfull.le
      · rw [dif_neg fun h => hfull h.2, Nat.le_iff_lt_or_eq, or_iff_left hfull,
          ← exists_copyTo_iff h0]
        cases copyTo CHANNEL_MAX chnl with
        | error f => simp
        | ok str => simp [Emit.emit]

end Rules

/-- A `/who` with a name that fills its field. The copy leaves no room for a terminator, but it
stores none. -/
def FillsWho (buff : List UInt8) : Prop :=
  decodeInput buff = .who ∧ ∃ chnl ∈ getCommandArg buff, chnl.length = CHANNEL_MAX

instance decidableFillsWho (buff : List UInt8) : Decidable (FillsWho buff) :=
  inferInstanceAs (Decidable (decodeInput buff = .who ∧
    ∃ chnl ∈ getCommandArg buff, chnl.length = CHANNEL_MAX))

/-- Everything else that is sent is a request. -/
theorem exists_request_of_not_fillsWho {c : Client} {buff : Line} (h : ¬ FillsWho buff.bytes)
    {m : ClientMessage} (hm : m ∈ (c.turn buff).out) : ∃ rq, m = .request rq := by
  cases Client.sends_turn c buff m hm with
  | @fullWho f hk harg => exact absurd ⟨hk, f.bytes, harg, f.fills⟩ h
  | join | say | list | who | leave | logout => exact ⟨_, rfl⟩

/-- **The same lines** are those on which a turn of the client ends well, and the `/who` with a name
that fills its field. -/
theorem exists_turn_ok_iff {c : Client} (hl : c.logout = false) (buff : Line) :
    (∃ c', (c.turn buff).result = .ok c') ↔ LineFits c buff.bytes ∨ FillsWho buff.bytes := by
  have other : ∀ {p : Prop}, decodeInput buff.bytes ≠ .who → (p ∨ FillsWho buff.bytes ↔ p) :=
    fun hk => or_iff_left fun h => hk h.1
  rw [Client.turn, if_neg (ne_true_of_eq_false hl), LineFits]
  cases hk : decodeInput buff.bytes with
  | join => exact exists_caseJoin_iff.trans (other (by simp [hk])).symm
  | say =>
    refine Iff.trans ?_ (other (by simp [hk])).symm
    simpa [Emit.bind_eq_ok_iff] using exists_sendSayReq_iff c.activeChannel
  | who =>
    have hfills : FillsWho buff.bytes ↔
        ∃ chnl ∈ getCommandArg buff.bytes, chnl.length = CHANNEL_MAX := and_iff_right hk
    have hturn : (∃ c', ((sendWhoReq buff.bytes >>= fun _ => pure c : ClientAct Client)).result =
        .ok c') ↔ ∃ r, (sendWhoReq buff.bytes).result = .ok r := by
      simp [Emit.bind_eq_ok_iff]
    rw [hfills]
    refine hturn.trans (exists_sendWhoReq_iff.trans ?_)
    cases getCommandArg buff.bytes with
    | none => simp
    | some chnl => simpa using Nat.le_iff_lt_or_eq
  | leave => exact exists_caseLeave_iff.trans (other (by simp [hk])).symm
  | switch => exact iff_of_true ⟨_, rfl⟩ (Or.inl trivial)
  | list => exact iff_of_true ⟨_, rfl⟩ (Or.inl trivial)
  | logout => exact iff_of_true ⟨_, rfl⟩ (Or.inl trivial)
  | unknown => exact iff_of_true ⟨_, rfl⟩ (Or.inl trivial)

/-- A user forgets the name. The copy starts in front of the line. -/
theorem not_lineSafe :
    ¬ ∀ (c : Client) (buff : Line), buff.bytes.length + 2 < BUFSIZ → LineSafe c buff.bytes := by
  intro h
  have hsafe := h Client.start ⟨ascii "/join", by decide, by decide⟩ (by decide)
  have hin : LineCopy.Inside ⟨.line (-1), 0, CHANNEL_MAX⟩ := (hsafe _ (List.mem_singleton_self _)).1
  exact absurd hin.1 (by decide)

end DuckChat
