import DuckChat.Integrity

/-!
# Lookups that find nothing

A handler looks up its channel by name, its user by address, and `REQ_SAY` the speaker by address
among the users of the channel. Each of these may find nothing. `REQ_WHO` and `REQ_LEAVE` test for a
missing channel and go on to the next request; `REQ_SAY` sends the same error, and then follows the
pointer all the same. The speaker is never tested for: a user who is logged in, but not in the
channel, is followed as `NULL`.

## Main definitions

* `RejectsCleanly` — an error to the sender, and nothing else
* `FromUsers` — logins, and joins, says and leaves from addresses that are logged in
* `SaysAsMember` — a say comes from a user of the channel, or there is none

## Main results

* `rejectsCleanly_iff` — a request for a channel that does not exist
* `avoids_null_iff` — a request for one that does
-/

set_option autoImplicit false

namespace DuckChat

/-! ### Channels that do not exist -/

/-- The channel that a say, a who or a leave is about. -/
def ClientRequest.asksFor : ClientRequest → Option Name
  | .say c _ => some c
  | .who c => some c
  | .leave c => some c
  | _ => none

def ClientRequest.isSay : ClientRequest → Bool
  | .say _ _ => true
  | _ => false

/-- One error goes to the sender, and that is all that happens. -/
def RejectsCleanly (s : ServerState) (a : Sockaddr) (rq : ClientRequest) (drawn : Id) (now : ℤ) :
    Prop :=
  ∃ txtError, handle s a (.client rq) drawn now = ⟨[⟨a, .text (.error txtError)⟩], .ok s⟩

section Unknown

variable {s : ServerState} {a : Sockaddr} {c : Name}

/-- With a user logged in there is room for the name in the reply to a who. -/
theorem fits_whoLen (ha : (findUser s.allUsers a).isSome) :
    ¬ 36 + USERNAME_MAX * s.allUsers.count.toNat < 8 + c.bytes.length + 1 := by
  obtain ⟨usr, hu⟩ := Option.isSome_iff_exists.mp ha
  have hpos := Table.count_pos_of_mem (List.mem_of_find?_eq_some hu)
  have hc : c.bytes.length < 32 := c.fits
  have hmax : USERNAME_MAX = 32 := rfl
  rw [hmax]
  omega

/-- **A request for a channel that does not exist** is rejected with an error and nothing else,
unless it is a say. -/
theorem rejectsCleanly_iff (s : ServerState) (a : Sockaddr) (rq : ClientRequest) (c : Name)
    (drawn : Id) (now : ℤ) (ha : (findUser s.allUsers a).isSome) (hrq : rq.asksFor = some c)
    (hc : c ∉ s.names) : RejectsCleanly s a rq drawn now ↔ rq.isSay = false := by
  have hf : findChannel s.channels c = none := findChannel_eq_none_iff.mpr hc
  cases rq with
  | say d t =>
    cases hrq
    have hsay : handle s a (.client (.say c t)) drawn now =
        ⟨[⟨a, .text (fillError c)⟩], .error .null⟩ := by
      rw [handle, reqSay, hf]
      rfl
    refine iff_of_false ?_ Bool.noConfusion
    rintro ⟨txtError, h⟩
    rw [hsay] at h
    cases congrArg Emit.result h
  | who d =>
    cases hrq
    obtain ⟨txtError, he⟩ : ∃ txtError, whoError c = .error txtError := ⟨_, rfl⟩
    refine iff_of_true ⟨txtError, ?_⟩ rfl
    rw [handle, reqWho, hf]
    simp only [if_neg (fits_whoLen ha), he]
    rfl
  | leave d =>
    cases hrq
    obtain ⟨txtError, he⟩ : ∃ txtError, fillError c = .error txtError := ⟨_, rfl⟩
    refine iff_of_true ⟨txtError, ?_⟩ rfl
    rw [handle, reqLeave, hf]
    simp only [he]
    rfl
  | login u => cases hrq
  | logout => cases hrq
  | join d => cases hrq
  | list => cases hrq
  | other k => cases hrq

end Unknown

open Three in
theorem rejectsCleanly_iff_withUser :
    RejectsCleanly (withUser 1) (client 1) (.who chnlX) 0 0 ↔
      (ClientRequest.who chnlX).isSay = false :=
  rejectsCleanly_iff (withUser 1) (client 1) (.who chnlX) chnlX 0 0 (by decide) (by rfl) (by decide)

open Three in
/-- A user says something to a channel that does not exist. -/
theorem not_rejectsCleanly_withUser :
    ¬ ∀ (addrs : List Sockaddr) (s : ServerState) (a : Sockaddr) (rq : ClientRequest) (c : Name)
        (drawn : Id) (now : ℤ), Reachable addrs s → (findUser s.allUsers a).isSome →
        rq.asksFor = some c → c ∉ s.names → RejectsCleanly s a rq drawn now := by
  intro h
  obtain ⟨txtError, hsay⟩ := h (line.nbrAddrs 1) (withUser 1) (client 1) (.say chnlX hello) chnlX
    0 0 reachable_withUser (by decide) (by rfl) (by decide)
  have hnull : (handle (withUser 1) (client 1) (.client (.say chnlX hello)) 0 0).result =
      .error .null := by rfl
  rw [hsay] at hnull
  cases hnull

/-! ### Channels that do -/

/-- The request is a list, or it names a channel that exists. -/
def ClientRequest.NamesExisting (s : ServerState) : ClientRequest → Prop
  | .list => True
  | .join c => c ∈ s.names
  | .say c _ => c ∈ s.names
  | .who c => c ∈ s.names
  | .leave c => c ∈ s.names
  | _ => False

/-- The input is a login, or a join, a say or a leave from an address that is logged in, or the
server's own. -/
def FromUsers (s : ServerState) : Input → Prop
  | .datagram _ (.client (.login _)) _ _ => True
  | .datagram a (.client (.join _)) _ _ => (findUser s.allUsers a).isSome
  | .datagram a (.client (.say _ _)) _ _ => (findUser s.allUsers a).isSome
  | .datagram a (.client (.leave _)) _ _ => (findUser s.allUsers a).isSome
  | .timeouts _ => True
  | .renewal _ => True
  | _ => False

instance decidableFromUsers (s : ServerState) : ∀ i, Decidable (FromUsers s i)
  | .datagram a (.client (.join _)) _ _ =>
      inferInstanceAs (Decidable ((findUser s.allUsers a).isSome = true))
  | .datagram a (.client (.say _ _)) _ _ =>
      inferInstanceAs (Decidable ((findUser s.allUsers a).isSome = true))
  | .datagram a (.client (.leave _)) _ _ =>
      inferInstanceAs (Decidable ((findUser s.allUsers a).isSome = true))
  | .datagram _ (.client (.login _)) _ _ => .isTrue trivial
  | .datagram _ (.client .logout) _ _ => .isFalse id
  | .datagram _ (.client .list) _ _ => .isFalse id
  | .datagram _ (.client (.who _)) _ _ => .isFalse id
  | .datagram _ (.client (.other _)) _ _ => .isFalse id
  | .datagram _ (.s2s _) _ _ => .isFalse id
  | .timeouts _ => .isTrue trivial
  | .renewal _ => .isTrue trivial

/-- If it is a say, then its sender is among the users of the channel, or nobody is. -/
def SaysAsMember (s : ServerState) (a : Sockaddr) : ClientRequest → Prop
  | .say c _ => s.usersOf c = [] ∨ ∃ e ∈ s.usersOf c, isAt a e
  | _ => True

section Existing

variable {s : ServerState} {heap : List User} {chnl : Channel} {es : List (Option User)}
  {a : Sockaddr} {c : Name} {t : SayText} {drawn : Id} {now : ℤ}

/-- Such inputs are careful: nobody joins who is not logged in, and nobody logs out. -/
theorem FromUsers.careful {i : Input} (h : FromUsers s i) : Careful s i := by
  rcases i with ⟨a, (rq | m), drawn, now⟩ | now | now
  · cases rq with
    | join c => exact h
    | logout => exact absurd h id
    | _ => exact trivial
  · exact trivial
  · exact trivial
  · exact trivial

theorem store_ne_null {α : Type} {cap : ℕ} {tab : Table α cap} {x : α} :
    store tab x ≠ .error .null := by
  rw [store]
  cases tab.push x with
  | ok tab' => exact fun h => by cases h
  | error r => exact fun h => by cases h

/-- `add_user` stores the pointer that it is given, `NULL` or not. -/
theorem addUser_ne_null {e : Option User} : addUser chnl e ≠ .error .null := by
  rw [addUser]
  intro h
  split at h
  · next hs =>
    cases h
    exact store_ne_null hs
  · cases h

theorem record_ne_null {ids : RecentIds} : ids.record drawn ≠ .error .null := fun h =>
  by cases RecentIds.record_error h

theorem whoLoop_ne_null {whoLen i : ℕ} (h : ∀ e ∈ es, Readable heap e) :
    whoLoop heap whoLen i es ≠ .error .null := by
  induction es generalizing i with
  | nil => exact fun h => by cases h
  | cons e es ih =>
    obtain ⟨u, hu, rfl⟩ := h e List.mem_cons_self
    have ih := ih (i := i + 1) fun x hx => h x (List.mem_cons_of_mem _ hx)
    rw [whoLoop, deref_eq_ok_iff.mpr ⟨rfl, hu⟩]
    show (if _ then _ else _) ≠ _
    split
    · cases hr : whoLoop heap whoLen (i + 1) es with
      | ok names => exact fun h => by cases h
      | error f =>
        rw [hr] at ih
        exact fun h => ih (by cases h; rfl)
    · exact fun h => by cases h

/-- The speaker is found among readable entries, or not: that decides. -/
theorem avoids_sayLoop_iff (h : ∀ e ∈ chnl.entries, Readable heap e)
    (hes : ∀ e ∈ es, Readable heap e) :
    (sayLoop heap chnl a c t es).Avoids .null ↔ es = [] ∨ ∃ e ∈ chnl.entries, isAt a e := by
  by_cases hmem : ∃ e ∈ chnl.entries, isAt a e
  · refine iff_of_true ?_ (Or.inr hmem)
    obtain ⟨e, he, hat⟩ := hmem
    obtain ⟨v, -, rfl⟩ := h e he
    obtain ⟨name, hloop⟩ := sayLoop_eq (c := c) (t := t) h he (isAt_some.mp hat) hes
    rw [hloop]
    exact fun h => by cases h
  · cases es with
    | nil => exact iff_of_true (Emit.avoids_pure _) (Or.inl rfl)
    | cons e es =>
      refine iff_of_false ?_ (by simpa using hmem)
      have hnone : chnl.entries.find? (hasUser fun u => addrCmp u.address a) = none :=
        List.find?_eq_none.mpr fun x hx hat => hmem ⟨x, hx, hat⟩
      rw [sayLoop, findByaddr_eq_ok h, hnone]
      exact fun hne => hne rfl

theorem avoids_reqJoin : (reqJoin s a c now).Avoids .null := by
  refine (Emit.avoids_emitAll _).bind fun _ _ => (Emit.avoids_lift ?_).bind fun x _ =>
    (Emit.avoids_lift addUser_ne_null).bind fun _ _ => Emit.avoids_pure _
  cases findChannel s.channels c with
  | some chnl => exact fun h => by cases h
  | none =>
    show (addChnl s.channels c now >>= _) ≠ _
    cases hadd : addChnl s.channels c now with
    | ok chnls => exact fun h => by cases h
    | error f =>
      intro h
      cases h
      exact store_ne_null hadd

theorem avoids_reqWho (hr : Referential s) : (reqWho s a c).Avoids .null := by
  rw [reqWho]
  split
  · exact Emit.avoids_lift fun h => by cases h
  · split
    · exact (Emit.avoids_emit _).bind fun _ _ => Emit.avoids_pure _
    · next chnl hf =>
      exact (Emit.avoids_lift (whoLoop_ne_null (hr chnl (findChannel_some hf).1))).bind fun _ _ =>
        (Emit.avoids_emit _).bind fun _ _ => Emit.avoids_pure _

theorem avoids_reqLeave (hr : Referential s) (ha : (findUser s.allUsers a).isSome) :
    (reqLeave s a c).Avoids .null := by
  obtain ⟨usr, hu⟩ := Option.isSome_iff_exists.mp ha
  rw [reqLeave]
  split
  · exact (Emit.avoids_emit _).bind fun _ _ => Emit.avoids_pure _
  · next chnl hf =>
    rw [hu]
    refine (Emit.avoids_lift ?_).bind fun x _ => ?_
    · rw [removeUserOf, removeUser_eq_ok _ (hr chnl (findChannel_some hf).1)]
      exact fun h => by cases h
    dsimp only
    split
    · exact (Emit.avoids_emitAll _).bind fun _ _ => Emit.avoids_pure _
    · exact Emit.avoids_pure _

/-- **A say** is safe from its loop on. -/
theorem avoids_reqSay_iff (hr : Referential s) (ha : (findUser s.allUsers a).isSome)
    (hc : c ∈ s.names) :
    (reqSay s a c t drawn).Avoids .null ↔ SaysAsMember s a (.say c t) := by
  obtain ⟨usr, hu⟩ := Option.isSome_iff_exists.mp ha
  obtain ⟨chnl, hf⟩ := Option.isSome_iff_exists.mp (isSome_findChannel_iff.mpr hc)
  have hread := hr chnl (findChannel_some hf).1
  rw [SaysAsMember, ServerState.usersOf, hf, ← avoids_sayLoop_iff (c := c) (t := t) hread hread,
    reqSay, hf]
  constructor
  · intro h hloop
    refine h ?_
    show (sayLoop s.heap chnl a c t chnl.entries >>= _).result = _
    cases hs : sayLoop s.heap chnl a c t chnl.entries with
    | mk o r =>
      rw [hs] at hloop
      obtain rfl : r = .error .null := hloop
      rfl
  · intro h
    rw [hu]
    exact h.bind fun _ _ => (Emit.avoids_lift fun h => by cases h).bind fun _ _ =>
      (Emit.avoids_lift record_ne_null).bind fun _ _ => (Emit.avoids_emitAll _).bind fun _ _ =>
        Emit.avoids_pure _

end Existing

/-- **A user who is logged in** makes the server follow `NULL` with no request about a channel that
exists, except a say to a channel that others are in and the user is not. -/
theorem avoids_null_iff (addrs : List Sockaddr) (unset start now : ℤ) (is : List Input)
    (s : ServerState) (a : Sockaddr) (rq : ClientRequest) (drawn : Id)
    (h : Run ServerState.next FromUsers (ServerState.start addrs unset start) is s)
    (ha : (findUser s.allUsers a).isSome) (hrq : rq.NamesExisting s) :
    (handle s a (.client rq) drawn now).Avoids .null ↔ SaysAsMember s a rq := by
  have hr : Referential s :=
    (referential_start addrs unset start).of_run (h.mono fun _ _ => FromUsers.careful)
  cases rq with
  | list => exact iff_of_true ((Emit.avoids_emit _).bind fun _ _ => Emit.avoids_pure _) trivial
  | join c => exact iff_of_true avoids_reqJoin trivial
  | say c t => exact avoids_reqSay_iff hr ha hrq
  | who c => exact iff_of_true (avoids_reqWho hr) trivial
  | leave c => exact iff_of_true (avoids_reqLeave hr ha) trivial
  | login u => exact absurd hrq id
  | logout => exact absurd hrq id
  | other k => exact absurd hrq id

namespace Three

/-- Two users log in, and one of them joins a channel. -/
def onlooker : List Input := [enter 0, enter 1, ask 0 (.join chnlX)]

end Three

open Three in
theorem avoids_null_on_onlooker :
    ∃ s, Run ServerState.next FromUsers alone onlooker s ∧
      ((handle s (client 0) (.client (.say chnlX hello)) 0 0).Avoids .null ↔
        SaysAsMember s (client 0) (.say chnlX hello)) := by
  have hex : (execute ServerState.next FromUsers alone onlooker).any
      (fun s => (findUser s.allUsers (client 0)).isSome ∧ chnlX ∈ s.names) = true := by decide
  obtain ⟨s, hr, hs⟩ := exists_run_of_execute hex
  obtain ⟨ha, hc⟩ := of_decide_eq_true hs
  exact ⟨s, hr, avoids_null_iff [] 0 0 0 onlooker s (client 0) (.say chnlX hello) 0 hr ha hc⟩

open Three in
/-- The other one says something in the channel. -/
theorem not_avoids_null_on_onlooker :
    ¬ ∀ (addrs : List Sockaddr) (unset start now : ℤ) (is : List Input) (s : ServerState)
        (a : Sockaddr) (rq : ClientRequest) (drawn : Id),
        Run ServerState.next FromUsers (ServerState.start addrs unset start) is s →
        (findUser s.allUsers a).isSome → rq.NamesExisting s →
        (handle s a (.client rq) drawn now).Avoids .null := by
  intro h
  have hex : (execute ServerState.next FromUsers alone onlooker).any
      (fun s => (findUser s.allUsers (client 1)).isSome ∧ chnlX ∈ s.names ∧
        (handle s (client 1) (.client (.say chnlX hello)) 0 0).result = .error .null) = true := by
    decide
  obtain ⟨s, hr, hs⟩ := exists_run_of_execute hex
  obtain ⟨ha, hc, hnull⟩ := of_decide_eq_true hs
  exact h [] 0 0 0 onlooker s (client 1) (.say chnlX hello) 0 hr ha hc hnull

end DuckChat
