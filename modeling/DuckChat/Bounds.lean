import DuckChat.Unsubscribe
import Mathlib.Data.List.TakeWhile

/-!
# Counters and the stores they index

Every table of the server is an array with a counter, and an append stores at the counter without
looking at it. Here the stores themselves are written down, function by function, with the size of
the array each goes to, and with the one that `neat_remove` makes behind the last element; and so
are the counters that `remove_user` lowers, which it does on an empty channel as well, for anybody,
and on several of them before a logout comes to a fault; where there are no channels, a logout of
somebody who is not logged in goes on to the counter of all users. A run stays inside its arrays
exactly as long as no input is one of those that `Roomy` leaves out.

## Main definitions

* `Store`, `stores` — the stores an input makes, with the sizes of the arrays
* `lowered` — the counters that an input takes down
* `Bounded` — every counter is within its table
* `Roomy` — an input for which there is room

## Main results

* `roomy_iff` — one input
* `counts_in_bounds` — every run
-/

set_option autoImplicit false

namespace DuckChat

/-! ### Stores -/

/-- A store to an array: its index, and the number of elements declared. -/
structure Store where
  index : ℤ
  size : ℤ
deriving DecidableEq

/-- The index is one of the array's. -/
def Store.Inside (st : Store) : Prop := 0 ≤ st.index ∧ st.index < st.size

instance decidableInside (st : Store) : Decidable st.Inside :=
  inferInstanceAs (Decidable (0 ≤ st.index ∧ st.index < st.size))

/-- The store of `add_user`. -/
def addUserStores (chnl : Channel) : List Store := [⟨chnl.numUsers, MAX_USERS⟩]

/-- The store of `create_user`. -/
def createUserStores (chnl : Channel) : List Store := [⟨chnl.numUsers, MAX_USERS⟩]

/-- The store of `add_chnl`. -/
def addChnlStores {cap : ℕ} (chnls : Table Channel cap) : List Store := [⟨chnls.count, cap⟩]

/-- The two stores of `add_ch_srv`, to `sub_channels` and to `timers`. -/
def addChSrvStores (srvr : Server) : List Store :=
  [⟨srvr.numChnnls, MAX_CHANNELS⟩, ⟨srvr.numChnnls, MAX_CHANNELS⟩]

/-- The indices that the loop of `neat_remove` stores to, on the elements from index `i` on. -/
def shiftStores {α : Type} (hit : ℕ → α → Bool) : ℕ → Bool → List α → List ℤ
  | _, _, [] => []
  | i, true, _ :: xs => ((i : ℤ) - 1) :: shiftStores hit (i + 1) true xs
  | i, false, x :: xs => shiftStores hit (i + 1) (hit i x) xs

/-- The stores of `neat_remove` to an array of `size` elements: those of the loop, and
`list[i] = NULL` at the index where it stopped. -/
def neatRemoveStores {α : Type} {cap : ℕ} (size : ℤ) (list : Table α cap) (cmp : α → Bool)
    (pos : Option ℤ) : List Store :=
  let hit : ℕ → α → Bool := fun i x =>
    match pos with
    | none => cmp x
    | some p => p == i
  (shiftStores hit 0 false list.live).map (fun i => ⟨i, size⟩) ++ [⟨list.count.toNat, size⟩]

/-- The stores of `remove_chnl`. -/
def removeChnlStores {cap : ℕ} (chnls : Table Channel cap) (chnlName : Name) : List Store :=
  neatRemoveStores cap chnls (chnlCmp chnlName) none

/-- The stores of `remove_adj_channel`, to its two arrays of `num_chnnls` pointers. -/
def removeAdjChannelStores (srvr : Server) (channel : Name) : List Store :=
  let pos : ℤ := -1
  neatRemoveStores srvr.numChnnls srvr.subChannels (channelCmp channel) (some pos) ++
    neatRemoveStores srvr.numChnnls srvr.timers (fun _ => false) (some pos)

/-! ### The stores of an input -/

/-- The stores of `case REQ_LOGIN`, the one to `all_users` with them. An empty table of channels has
a channel without users in its first slot. -/
def loginStores (s : ServerState) (clientAddr : Sockaddr) (reqUsername : Username) : List Store :=
  let usr : User := ⟨s.heapNext, reqUsername, clientAddr⟩
  match s.channels.live with
  | [] => [⟨0, MAX_USERS⟩, ⟨s.allUsers.count, MAX_USERS⟩]
  | chnl :: _ =>
      createUserStores chnl ++
        if Legible (usr :: s.heap) (fun v => v.username == reqUsername)
          (chnl.entries ++ [some usr]) then [⟨s.allUsers.count, MAX_USERS⟩] else []

/-- The stores of `case REQ_JOIN`. -/
def joinStores (s : ServerState) (reqChannel : Name) (now : ℤ) : List Store :=
  match findChannel s.channels reqChannel with
  | some chnl => addUserStores chnl
  | none => addChnlStores s.channels ++ addUserStores (createChannel reqChannel now)

/-- The stores of `case REQ_LEAVE`. Only a user brings a counter down to 0: an address that is not
logged in does not get through a channel with entries. -/
def leaveStores (s : ServerState) (clientAddr : Sockaddr) (reqChannel : Name) : List Store :=
  match findChannel s.channels reqChannel, findUser s.allUsers clientAddr with
  | some chnl, some usr =>
      if Legible s.heap (fun v => v.username == usr.username) chnl.entries ∧
          chnl.numUsers - 1 = 0 then
        removeChnlStores (storeChannel s.channels reqChannel (chnl.expel usr.username)) reqChannel
      else []
  | _, _ => []

/-- The stores of `case REQ_SERV_JOIN`. -/
def servJoinStores (s : ServerState) (clientAddr : Sockaddr) (reqChannel : Name) : List Store :=
  match findServerAddress s.cnnctSrvrs clientAddr with
  | none => []
  | some srvr =>
      (if hasChannelServer srvr reqChannel then [] else addChSrvStores srvr) ++
        match findChannel s.channels reqChannel with
        | some _ => []
        | none => addChnlStores s.channels

/-- The stores of `case REQ_SERV_LEAVE`. -/
def servLeaveStores (s : ServerState) (clientAddr : Sockaddr) (reqChannel : Name) : List Store :=
  match findServerAddress s.cnnctSrvrs clientAddr with
  | none => []
  | some srv => removeAdjChannelStores srv reqChannel

/-- The stores of the timeout scan on one record. -/
def timeoutStores (now : ℤ) : ℕ → ℕ → Server → List Store
  | 0, _, _ => []
  | n + 1, j, srvr =>
      match srvr.subs[j]? with
      | none => []
      | some name =>
          if channelElapse srvr name now > MIN_2 then
            removeAdjChannelStores srvr name ++
              match removeAdjChannel srvr name with
              | .ok srvr => timeoutStores now n (j + 1) srvr
              | .error _ => []
          else timeoutStores now n (j + 1) srvr

/-- The stores that an input makes through `add_user`, `create_user`, `add_chnl`, `add_ch_srv` and
`neat_remove`. -/
def stores (s : ServerState) : Input → List Store
  | .datagram a (.client (.login u)) _ _ => loginStores s a u
  | .datagram _ (.client (.join c)) _ now => joinStores s c now
  | .datagram a (.client (.leave c)) _ _ => leaveStores s a c
  | .datagram a (.s2s (.join c)) _ _ => servJoinStores s a c
  | .datagram a (.s2s (.leave c)) _ _ => servLeaveStores s a c
  | .timeouts now =>
      s.cnnctSrvrs.flatMap fun srvr => timeoutStores now srvr.numChnnls.toNat 1 srvr
  | _ => []

/-! ### The counters of an input -/

/-- The channels that the loop of `case REQ_LOGOUT` gets through, up to the first that has a name it
cannot compare. -/
def logoutReach (s : ServerState) (clientAddr : Sockaddr) : List Channel :=
  s.channels.live.takeWhile fun chnl =>
    Removable s.heap (findUser s.allUsers clientAddr) chnl.entries

/-- It gets through all of them, to the shift in `all_users` from `u_pos` on. -/
def LogoutShifts (s : ServerState) (clientAddr : Sockaddr) : Prop :=
  ∀ chnl ∈ s.channels.live, Removable s.heap (findUser s.allUsers clientAddr) chnl.entries

instance decidableLogoutShifts (s : ServerState) (clientAddr : Sockaddr) :
    Decidable (LogoutShifts s clientAddr) :=
  inferInstanceAs (Decidable (∀ chnl ∈ s.channels.live,
    Removable s.heap (findUser s.allUsers clientAddr) chnl.entries))

/-- The values to which an input sets `num_users` of channels by `remove_user`, whether or not it
comes to a fault later on, and a logout that of all users. -/
def lowered (s : ServerState) : Input → List ℤ
  | .datagram a (.client .logout) _ _ =>
      (logoutReach s a).map (fun chnl => chnl.numUsers - 1) ++
        if LogoutShifts s a then [s.allUsers.count - 1] else []
  | .datagram a (.client (.leave c)) _ _ =>
      match findChannel s.channels c with
      | none => []
      | some chnl =>
          if Removable s.heap (findUser s.allUsers a) chnl.entries then [chnl.numUsers - 1] else []
  | .datagram _ (.client (.login _)) _ _ =>
      -- one more before, by `create_user`
      (s.channels.live.take 1).map fun chnl => chnl.numUsers + 1 - 1
  | _ => []

/-! ### What is promised, and when -/

/-- Every counter is within its table. -/
structure Bounded (s : ServerState) : Prop where
  channels : 0 ≤ s.channels.count ∧ s.channels.count ≤ MAX_USERS
  allUsers : 0 ≤ s.allUsers.count ∧ s.allUsers.count ≤ MAX_USERS
  users : ∀ chnl ∈ s.channels.live, 0 ≤ chnl.numUsers ∧ chnl.numUsers ≤ MAX_USERS
  subs : ∀ srvr ∈ s.cnnctSrvrs, 0 ≤ srvr.numChnnls ∧ srvr.numChnnls ≤ MAX_CHANNELS

/-- An input for which there is room. A login needs a slot in the first channel, and one in the
table of users if it gets there; a join one in the channel, or in the table of channels. The other
way around, a logout may get to no empty channel, and to the shift in the table of users only where
`u_pos` is set; a leave may get to no empty channel either, and the leave of a last user to no full
table; an address that is not logged in gets to empty channels only. A neighbour's join needs its
slots, and there is no room for any removal from a neighbour's record. -/
def Roomy (s : ServerState) : Input → Prop
  | .datagram a (.client (.login u)) _ _ =>
      (∀ chnl ∈ s.channels.live.head?, chnl.numUsers < MAX_USERS) ∧
        ((∀ chnl ∈ s.channels.live.head?,
            Legible (⟨s.heapNext, u, a⟩ :: s.heap) (fun v => v.username == u)
              (chnl.entries ++ [some ⟨s.heapNext, u, a⟩])) →
          s.allUsers.count < MAX_USERS)
  | .datagram a (.client .logout) _ _ =>
      (∀ chnl ∈ logoutReach s a, chnl.numUsers ≠ 0) ∧
        (LogoutShifts s a → (findUser s.allUsers a).isSome)
  | .datagram _ (.client (.join c)) _ _ =>
      (∀ chnl ∈ findChannel s.channels c, chnl.numUsers < MAX_USERS) ∧
        (c ∉ s.names → s.channels.count < MAX_USERS)
  | .datagram a (.client (.leave c)) _ _ =>
      ∀ chnl ∈ findChannel s.channels c,
        Removable s.heap (findUser s.allUsers a) chnl.entries →
        chnl.numUsers ≠ 0 ∧ (chnl.numUsers = 1 → s.channels.count < MAX_USERS)
  | .datagram a (.s2s (.join c)) _ _ =>
      ∀ srvr ∈ findServerAddress s.cnnctSrvrs a,
        (c ∉ srvr.subs → srvr.numChnnls < MAX_CHANNELS) ∧
          (c ∉ s.names → s.channels.count < MAX_USERS)
  | .datagram a (.s2s (.leave _)) _ _ => findServerAddress s.cnnctSrvrs a = none
  | .timeouts now =>
      ∀ srvr ∈ s.cnnctSrvrs, ∀ name ∈ srvr.subs.tail, channelElapse srvr name now ≤ MIN_2
  | _ => True

instance decidableRoomy (s : ServerState) : ∀ i, Decidable (Roomy s i)
  | .datagram a (.client (.login u)) _ _ =>
      inferInstanceAs (Decidable
        ((∀ chnl ∈ s.channels.live.head?, chnl.numUsers < MAX_USERS) ∧
          ((∀ chnl ∈ s.channels.live.head?,
              Legible (⟨s.heapNext, u, a⟩ :: s.heap) (fun v => v.username == u)
                (chnl.entries ++ [some ⟨s.heapNext, u, a⟩])) →
            s.allUsers.count < MAX_USERS)))
  | .datagram a (.client .logout) _ _ =>
      inferInstanceAs (Decidable ((∀ chnl ∈ logoutReach s a, chnl.numUsers ≠ 0) ∧
        (LogoutShifts s a → (findUser s.allUsers a).isSome)))
  | .datagram _ (.client (.join c)) _ _ =>
      inferInstanceAs (Decidable
        ((∀ chnl ∈ findChannel s.channels c, chnl.numUsers < MAX_USERS) ∧
          (c ∉ s.names → s.channels.count < MAX_USERS)))
  | .datagram a (.client (.leave c)) _ _ =>
      inferInstanceAs (Decidable
        (∀ chnl ∈ findChannel s.channels c,
          Removable s.heap (findUser s.allUsers a) chnl.entries →
          chnl.numUsers ≠ 0 ∧ (chnl.numUsers = 1 → s.channels.count < MAX_USERS)))
  | .datagram a (.s2s (.join c)) _ _ =>
      inferInstanceAs (Decidable (∀ srvr ∈ findServerAddress s.cnnctSrvrs a,
        (c ∉ srvr.subs → srvr.numChnnls < MAX_CHANNELS) ∧
          (c ∉ s.names → s.channels.count < MAX_USERS)))
  | .datagram a (.s2s (.leave _)) _ _ =>
      inferInstanceAs (Decidable (findServerAddress s.cnnctSrvrs a = none))
  | .timeouts now =>
      inferInstanceAs (Decidable (∀ srvr ∈ s.cnnctSrvrs, ∀ name ∈ srvr.subs.tail,
        channelElapse srvr name now ≤ MIN_2))
  | .datagram _ (.client (.say _ _)) _ _ => .isTrue trivial
  | .datagram _ (.client .list) _ _ => .isTrue trivial
  | .datagram _ (.client (.who _)) _ _ => .isTrue trivial
  | .datagram _ (.client (.other _)) _ _ => .isTrue trivial
  | .datagram _ (.s2s (.say _)) _ _ => .isTrue trivial
  | .renewal _ => .isTrue trivial

/-! ### Stores of the removals -/

section Removals

variable {α : Type} {cap : ℕ} {hit : ℕ → α → Bool} {list : Table α cap} {cmp : α → Bool}
  {pos : Option ℤ} {size : ℤ} {srvr : Server} {now : ℤ}

/-- The loop stores to slots in front of the one it reads. -/
theorem mem_shiftStores {i : ℕ} {move : Bool} {xs : List α} {k : ℤ}
    (h : k ∈ shiftStores hit i move xs) (hm : move = true → 1 ≤ i) :
    0 ≤ k ∧ k < i + xs.length := by
  induction xs generalizing i move with
  | nil => cases move <;> exact absurd h List.not_mem_nil
  | cons x xs ih =>
    have hrest : ∀ {move' : Bool}, k ∈ shiftStores hit (i + 1) move' xs →
        0 ≤ k ∧ k < i + (x :: xs).length := by
      intro move' hk
      have := ih hk fun _ => Nat.le_add_left 1 i
      rw [List.length_cons]
      omega
    cases move with
    | true =>
      rcases List.mem_cons.mp h with rfl | h
      · have := hm rfl
        rw [List.length_cons]
        omega
      · exact hrest h
    | false => exact hrest h

/-- **`neat_remove`** needs one slot more than there are elements. -/
theorem inside_neatRemoveStores_iff :
    (∀ st ∈ neatRemoveStores size list cmp pos, st.Inside) ↔ (list.count.toNat : ℤ) < size := by
  constructor
  · intro h
    exact (h _ (List.mem_append_right _ (List.mem_singleton_self _))).2
  · intro hlt st hst
    rcases List.mem_append.mp hst with hst | hst
    · obtain ⟨k, hk, rfl⟩ := List.mem_map.mp hst
      obtain ⟨h0, hk⟩ := mem_shiftStores hk fun h => by cases h
      rw [list.length_live] at hk
      exact ⟨h0, by show k < size; omega⟩
    · rw [List.mem_singleton.mp hst]
      exact ⟨Int.natCast_nonneg _, hlt⟩

/-- `remove_adj_channel` declares its arrays one too small. -/
theorem not_inside_removeAdjChannelStores (srvr : Server) (c : Name) :
    ¬ ∀ st ∈ removeAdjChannelStores srvr c, st.Inside := by
  intro h
  have hlt := inside_neatRemoveStores_iff.mp fun st hst => h st (List.mem_append_left _ hst)
  rw [Server.numChnnls] at hlt
  omega

/-- The scan of a record stays inside if it removes nothing. -/
theorem inside_timeoutStores_iff {n j : ℕ} (hn : srvr.subs.length ≤ j + n) :
    (∀ st ∈ timeoutStores now n j srvr, st.Inside) ↔
      ∀ name ∈ srvr.subs.drop j, channelElapse srvr name now ≤ MIN_2 := by
  induction n generalizing j with
  | zero =>
    rw [List.drop_eq_nil_of_le (by omega)]
    simp [timeoutStores]
  | succ n ih =>
    rw [timeoutStores]
    split
    · next hnone =>
      rw [List.drop_eq_nil_of_le (List.getElem?_eq_none_iff.mp hnone)]
      simp
    · next name hname =>
      obtain ⟨hlt, rfl⟩ := List.getElem?_eq_some_iff.mp hname
      rw [List.drop_eq_getElem_cons hlt, List.forall_mem_cons]
      split
      · next hlate =>
        constructor
        · intro h
          exact absurd (fun st hst => h st (List.mem_append_left _ hst))
            (not_inside_removeAdjChannelStores srvr _)
        · rintro ⟨hle, -⟩
          omega
      · next hok =>
        rw [ih (by omega)]
        exact ⟨fun h => ⟨by omega, h⟩, And.right⟩

/-- A record without late entries is not touched. -/
theorem timeoutLoop_eq_self {n j : ℕ}
    (h : ∀ name ∈ srvr.subs.drop j, channelElapse srvr name now ≤ MIN_2) :
    timeoutLoop now n j srvr = .ok srvr := by
  induction n generalizing j with
  | zero => rfl
  | succ n ih =>
    rw [timeoutLoop]
    split
    · rfl
    · next name hname =>
      obtain ⟨hlt, rfl⟩ := List.getElem?_eq_some_iff.mp hname
      rw [List.drop_eq_getElem_cons hlt, List.forall_mem_cons] at h
      rw [if_neg (by omega), ih h.2]

theorem timeoutServers_eq_self {srvs : List Server}
    (h : ∀ srvr ∈ srvs, ∀ name ∈ srvr.subs.tail, channelElapse srvr name now ≤ MIN_2) :
    timeoutServers now srvs = .ok srvs := by
  induction srvs with
  | nil => rfl
  | cons srvr srvs ih =>
    rw [List.forall_mem_cons, ← List.drop_one] at h
    rw [timeoutServers, timeoutLoop_eq_self h.1, ih h.2]
    rfl

end Removals

/-! ### Counters after an input -/

section Counters

variable {s s' : ServerState} {i : Input} {a : Sockaddr} {c : Name} {u : Username} {now : ℤ}
  {drawn : Id}

/-- The upper bounds are those of the tables. -/
theorem bounded_iff :
    Bounded s ↔ 0 ≤ s.channels.count ∧ 0 ≤ s.allUsers.count ∧
      (∀ chnl ∈ s.channels.live, 0 ≤ chnl.numUsers) ∧
      ∀ srvr ∈ s.cnnctSrvrs, 0 ≤ srvr.numChnnls := by
  constructor
  · intro h
    exact ⟨h.channels.1, h.allUsers.1, fun chnl hm => (h.users chnl hm).1,
      fun srvr hm => (h.subs srvr hm).1⟩
  · rintro ⟨hc, hu, hr, hs⟩
    exact ⟨⟨hc, s.channels.count_le⟩, ⟨hu, s.allUsers.count_le⟩,
      fun chnl hm => ⟨hr chnl hm, chnl.connectedUsers.count_le⟩,
      fun srvr hm => ⟨hs srvr hm, srvr.subChannels.count_le⟩⟩

theorem Bounded.reqLogin (hb : Bounded s) (h : (reqLogin s a u).result = .ok s') : Bounded s' := by
  obtain ⟨hsrvs, -, -, husers, hch⟩ := reqLogin_ok h
  obtain ⟨hc, hu, hr, hs⟩ := bounded_iff.mp hb
  have husers := (store_eq_ok_iff.mp husers).2.2.2
  have hu' : 0 ≤ s'.allUsers.count := by omega
  have hs' : ∀ srvr ∈ s'.cnnctSrvrs, 0 ≤ srvr.numChnnls := by rwa [hsrvs]
  rcases hch with ⟨-, he⟩ | ⟨chnl, chnls, chnl', hl, ⟨mid, ret, hadd, hrem⟩, he⟩
  · exact bounded_iff.mpr ⟨by rwa [he], hu', by rwa [he], hs'⟩
  · refine bounded_iff.mpr ⟨by rwa [he, Table.count_overwrite], hu', ?_, hs'⟩
    rw [he, Table.live_overwrite (by rw [hl]; rfl)]
    rw [hl] at hr
    refine List.forall_mem_cons.mpr ⟨?_, fun ch hm => hr ch (List.mem_cons_of_mem _ hm)⟩
    -- one user in, one user out
    have hin := (addUser_eq_ok_iff.mp hadd).2.2.2.1
    have hout := (removeUser_ok hrem).2.2.1
    have := hr chnl List.mem_cons_self
    omega

theorem Bounded.reqJoin (hb : Bounded s) (h : (reqJoin s a c now).result = .ok s') :
    Bounded s' := by
  obtain ⟨hsrvs, -, husers, -, chnls, chnl, chnl', hk, hadd, he⟩ := reqJoin_ok h
  obtain ⟨hc, hu, hr, hs⟩ := bounded_iff.mp hb
  obtain ⟨hin0, -, -, hin, -⟩ := addUser_eq_ok_iff.mp hadd
  have hchnls : 0 ≤ chnls.count ∧ ∀ ch ∈ chnls.live, 0 ≤ ch.numUsers := by
    rcases hk with ⟨-, rfl⟩ | ⟨-, -, ht⟩
    · exact ⟨hc, hr⟩
    · obtain ⟨-, -, hlive, hcount⟩ := addChnl_eq_ok_iff.mp ht
      refine ⟨by omega, fun ch hm => ?_⟩
      rw [hlive] at hm
      rcases List.mem_append.mp hm with hm | hm
      · exact hr ch hm
      · rw [List.mem_singleton.mp hm]
        exact Int.le_refl 0
  refine bounded_iff.mpr ⟨?_, by rwa [husers], fun ch hm => ?_, by rwa [hsrvs]⟩
  · rw [he, count_storeChannel]
    exact hchnls.1
  · rw [he, live_storeChannel] at hm
    rcases mem_replaceFirst hm with rfl | hm
    · omega
    · exact hchnls.2 ch hm

theorem Bounded.reqLogout (hb : Bounded s)
    (hroom : Roomy s (.datagram a (.client .logout) drawn now))
    (h : (reqLogout s a).result = .ok s') : Bounded s' := by
  obtain ⟨usr, hu, hleg, rfl⟩ := reqLogout_eq_ok_iff.mp h
  obtain ⟨hc, -, hr, hs⟩ := bounded_iff.mp hb
  have hpos : 0 < s.allUsers.count := Table.count_pos_of_mem (List.mem_of_find?_eq_some hu)
  refine bounded_iff.mpr ⟨?_, ?_, fun ch hm => ?_, hs⟩
  · exact Int.le_trans hc (Int.le_of_eq (Table.count_overwrite _ _).symm)
  · show 0 ≤ s.allUsers.count - 1
    omega
  · rw [channels_loggedOut] at hm
    obtain ⟨chnl, hold, rfl⟩ := List.mem_map.mp hm
    have hall : logoutReach s a = s.channels.live := by
      rw [logoutReach, hu]
      exact List.takeWhile_eq_self_iff.mpr fun ch hch => decide_eq_true (hleg ch hch)
    have h0 := hroom.1 chnl (by rw [hall]; exact hold)
    have := hr chnl hold
    rw [numUsers_expel]
    omega

theorem Bounded.reqLeave (hb : Bounded s)
    (hroom : Roomy s (.datagram a (.client (.leave c)) drawn now))
    (h : (reqLeave s a c).result = .ok s') : Bounded s' := by
  obtain ⟨hc, hu, hr, hs⟩ := bounded_iff.mp hb
  cases hf : findChannel s.channels c with
  | none =>
    rcases reqLeave_ok (b := a) h with ⟨-, rfl, -⟩ | ⟨chnl, _, _, hf', -⟩
    · exact hb
    · rw [hf] at hf'
      cases hf'
  | some chnl =>
    obtain ⟨hgoes, u, -, rfl⟩ := (reqLeave_eq_ok_iff hf).mp h
    have h0 := (hroom chnl hf hgoes).1
    have hmem := (findChannel_some hf).1
    have hstored : ∀ ch ∈ (storeChannel s.channels c (chnl.expel u)).live,
        0 ≤ ch.numUsers := by
      intro ch hm
      rw [live_storeChannel] at hm
      rcases mem_replaceFirst hm with rfl | hm
      · have := hr chnl hmem
        rw [numUsers_expel]
        omega
      · exact hr ch hm
    have hpos : 0 < s.channels.count := Table.count_pos_of_mem hmem
    refine bounded_iff.mpr ⟨?_, hu, fun ch hm => ?_, hs⟩
    all_goals simp only [ServerState.afterLeave] at *
    · split
      · show 0 ≤ (storeChannel s.channels c _).count - 1
        rw [count_storeChannel]
        omega
      · rwa [count_storeChannel]
    · split at hm
      · exact hstored ch (Table.mem_of_mem_live_remove (p := chnlCmp c) hm)
      · exact hstored ch hm

theorem Bounded.reqServJoin (hb : Bounded s) (h : (reqServJoin s a c now).result = .ok s') :
    Bounded s' := by
  obtain ⟨hc, hu, hr, hs⟩ := bounded_iff.mp hb
  obtain ⟨srvr, srvr', chnls, hsrvr, hj, hk, rfl⟩ := reqServJoin_ok h
  have hs' : ∀ new ∈ storeServer s.cnnctSrvrs a srvr', 0 ≤ new.numChnnls := by
    intro new hm
    rcases mem_replaceFirst hm with rfl | hm
    · exact numChnnls_noteJoin hj (hs srvr (findServerAddress_some hsrvr).1)
    · exact hs new hm
  rcases hk with ⟨-, rfl⟩ | ⟨-, hadd⟩
  · exact bounded_iff.mpr ⟨hc, hu, hr, hs'⟩
  · obtain ⟨-, -, hlive, hcount⟩ := addChnl_eq_ok_iff.mp hadd
    refine bounded_iff.mpr ⟨?_, hu, fun ch hm => ?_, hs'⟩
    · show 0 ≤ chnls.count
      omega
    · have hm : ch ∈ chnls.live := hm
      rw [hlive] at hm
      rcases List.mem_append.mp hm with hm | hm
      · exact hr ch hm
      · rw [List.mem_singleton.mp hm]
        exact Int.le_refl 0

/-- **Counters stay in bounds** after an input for which there is room. -/
theorem Bounded.step (hb : Bounded s) (hroom : Roomy s i) (h : (react s i).result = .ok s') :
    Bounded s' := by
  cases outcome_of_react h with
  | login h => exact hb.reqLogin h
  | logout h => exact hb.reqLogout hroom h
  | join h => exact hb.reqJoin h
  | leave h => exact hb.reqLeave hroom h
  | servJoin h => exact hb.reqServJoin h
  | servLeave h =>
    obtain ⟨srvr, hsrvr, -⟩ := exists_of_reqServLeave h
    have hnone : findServerAddress s.cnnctSrvrs _ = none := hroom
    cases hnone.symm.trans hsrvr
  | timeouts h =>
    rw [timeoutScan, timeoutServers_eq_self hroom] at h
    cases h
    exact hb
  | renewal h =>
    obtain ⟨hsrvs, -, -, husers, hcount, hlive⟩ := renewalPass_ok h
    obtain ⟨hc, hu, hr, hs⟩ := bounded_iff.mp hb
    refine bounded_iff.mpr ⟨by rwa [hcount], by rwa [husers], fun ch hm => ?_, by rwa [hsrvs]⟩
    have hin : ch.membership ∈ s.channels.live.map Channel.membership := by
      rw [← hlive]
      exact List.mem_map_of_mem hm
    obtain ⟨old, hold, heq⟩ := List.mem_map.mp hin
    have htable : old.connectedUsers = ch.connectedUsers := congrArg Prod.snd heq
    rw [Channel.numUsers, ← htable]
    exact hr old hold
  | recorded => exact ⟨hb.channels, hb.allUsers, hb.users, hb.subs⟩
  | idle => exact hb

end Counters

/-! ### Room is what the stores need -/

section Room

variable {s s' : ServerState} {i : Input} {a : Sockaddr} {c : Name} {u : Username} {now : ℤ}
  {drawn : Id}

theorem inside_iff_of_nonneg {k : ℤ} {n : ℕ} (h : 0 ≤ k) : (⟨k, n⟩ : Store).Inside ↔ k < n :=
  and_iff_right h

theorem inside_loginStores_iff (hb : Bounded s) :
    (∀ st ∈ loginStores s a u, st.Inside) ↔
      Roomy s (.datagram a (.client (.login u)) drawn now) := by
  obtain ⟨-, hu, hr, -⟩ := bounded_iff.mp hb
  rw [Roomy, loginStores]
  cases hl : s.channels.live with
  | nil =>
    have hzero : (⟨0, MAX_USERS⟩ : Store).Inside := by decide
    simp [inside_iff_of_nonneg hu, hzero]
  | cons chnl chnls =>
    rw [hl, List.forall_mem_cons] at hr
    simp only [createUserStores, List.head?_cons, Option.mem_some_iff, forall_eq',
      List.forall_mem_append, List.forall_mem_singleton, inside_iff_of_nonneg hr.1]
    refine and_congr_right fun _ => ?_
    split
    · next hleg => simp [hleg, inside_iff_of_nonneg hu]
    · next hleg => simp [hleg]

theorem inside_joinStores_iff (hb : Bounded s) :
    (∀ st ∈ joinStores s c now, st.Inside) ↔
      Roomy s (.datagram a (.client (.join c)) drawn now) := by
  obtain ⟨hc, -, hr, -⟩ := bounded_iff.mp hb
  rw [Roomy, joinStores]
  cases hf : findChannel s.channels c with
  | some chnl =>
    have hmem : c ∈ s.names := mem_chnlNames_of_find hf
    simp [addUserStores, inside_iff_of_nonneg (hr chnl (findChannel_some hf).1), hmem]
  | none =>
    have hmem : c ∉ s.names := findChannel_eq_none_iff.mp hf
    have hnew : (⟨(createChannel c now).numUsers, MAX_USERS⟩ : Store).Inside :=
      ⟨Int.le_refl 0, show (0 : ℤ) < (MAX_USERS : ℕ) by decide⟩
    simp [addChnlStores, addUserStores, inside_iff_of_nonneg hc, hmem, hnew]

theorem inside_leaveStores_iff (hb : Bounded s) :
    (∀ st ∈ leaveStores s a c, st.Inside) ↔
      ∀ chnl ∈ findChannel s.channels c,
        Removable s.heap (findUser s.allUsers a) chnl.entries →
        chnl.numUsers = 1 → s.channels.count < MAX_USERS := by
  rw [leaveStores]
  cases hf : findChannel s.channels c with
  | none => simp
  | some chnl =>
    cases hu : findUser s.allUsers a with
    | none =>
      have h0 := (hb.users chnl (findChannel_some hf).1).1
      have hempty : chnl.entries = [] → chnl.numUsers ≠ 1 := by
        intro hes h1
        rw [numUsers_eq_length h0, hes] at h1
        cases h1
      simpa [Removable] using fun hes h1 => absurd h1 (hempty hes)
    | some usr =>
      have hpos : 0 < s.channels.count := Table.count_pos_of_mem (findChannel_some hf).1
      simp only [Option.mem_some_iff, forall_eq', Removable]
      split
      · next hgoes =>
        have hone : chnl.numUsers = 1 := by omega
        have hcast : ((s.channels.count.toNat : ℕ) : ℤ) = s.channels.count := by omega
        rw [removeChnlStores, inside_neatRemoveStores_iff, count_storeChannel, hcast]
        simp [hgoes.1, hone]
      · next hstays =>
        have hnot : Legible s.heap (fun v => v.username == usr.username) chnl.entries →
            chnl.numUsers ≠ 1 := fun hleg h1 => hstays ⟨hleg, by omega⟩
        simp only [List.not_mem_nil, false_imp_iff, implies_true, true_iff]
        exact fun hleg h1 => absurd h1 (hnot hleg)

theorem inside_servJoinStores_iff (hb : Bounded s) :
    (∀ st ∈ servJoinStores s a c, st.Inside) ↔
      Roomy s (.datagram a (.s2s (.join c)) drawn now) := by
  obtain ⟨hc, -, -, hs⟩ := bounded_iff.mp hb
  rw [Roomy, servJoinStores]
  cases hsrvr : findServerAddress s.cnnctSrvrs a with
  | none => simp
  | some srvr =>
    have h0 := hs srvr (findServerAddress_some hsrvr).1
    simp only [Option.mem_some_iff, forall_eq', List.forall_mem_append]
    refine and_congr ?_ ?_
    · by_cases hin : c ∈ srvr.subs
      · simp [hin]
      · simp [hin, addChSrvStores, inside_iff_of_nonneg h0]
    · cases hf : findChannel s.channels c with
      | some chnl => simp [show c ∈ s.names from mem_chnlNames_of_find hf]
      | none =>
        simp [show c ∉ s.names from findChannel_eq_none_iff.mp hf, addChnlStores,
          inside_iff_of_nonneg hc]

theorem inside_servLeaveStores_iff :
    (∀ st ∈ servLeaveStores s a c, st.Inside) ↔ findServerAddress s.cnnctSrvrs a = none := by
  rw [servLeaveStores]
  cases hsrvr : findServerAddress s.cnnctSrvrs a with
  | none => simp
  | some srvr =>
    simp only [reduceCtorEq, iff_false]
    exact not_inside_removeAdjChannelStores srvr c

theorem inside_timeouts_iff :
    (∀ st ∈ stores s (.timeouts now), st.Inside) ↔ Roomy s (.timeouts now) := by
  have hloop : ∀ srvr : Server, (∀ st ∈ timeoutStores now srvr.numChnnls.toNat 1 srvr, st.Inside) ↔
      ∀ name ∈ srvr.subs.tail, channelElapse srvr name now ≤ MIN_2 := by
    intro srvr
    have hn : srvr.subs.length ≤ 1 + srvr.numChnnls.toNat := by
      rw [Server.subs, srvr.subChannels.length_live, Server.numChnnls]
      omega
    rw [inside_timeoutStores_iff hn, List.drop_one]
  simp only [stores, List.mem_flatMap, forall_exists_index, and_imp, Roomy]
  constructor
  · intro h srvr hm
    exact (hloop srvr).mp fun st hst => h st srvr hm hst
  · intro h st srvr hm hst
    exact (hloop srvr).mpr (h srvr hm) st hst

/-- An input for which there is room stores inside the arrays. -/
theorem inside_of_roomy (hb : Bounded s) (hroom : Roomy s i) : ∀ st ∈ stores s i, st.Inside := by
  rcases i with ⟨a, (rq | m), drawn, now⟩ | now | now
  · cases rq with
    | login u => exact (inside_loginStores_iff hb).mpr hroom
    | join c => exact (inside_joinStores_iff hb).mpr hroom
    | leave c =>
      exact (inside_leaveStores_iff hb).mpr fun chnl hf hgoes => (hroom chnl hf hgoes).2
    | _ => exact fun st hst => absurd hst List.not_mem_nil
  · cases m with
    | join c => exact (inside_servJoinStores_iff hb).mpr hroom
    | leave c => exact inside_servLeaveStores_iff.mpr hroom
    | say m => exact fun st hst => absurd hst List.not_mem_nil
  · exact inside_timeouts_iff.mpr hroom
  · exact fun st hst => absurd hst List.not_mem_nil

/-- Without a user, the loop of a logout gets through empty channels. -/
theorem exists_logoutLoop_none {heap : List User} {chnls : List Channel}
    (h : ∀ chnl ∈ chnls, chnl.entries = []) :
    ∃ chnls', logoutLoop heap none chnls = .ok chnls' := by
  induction chnls with
  | nil => exact ⟨[], rfl⟩
  | cons chnl chnls ih =>
    rw [List.forall_mem_cons] at h
    obtain ⟨chnls', hrest⟩ := ih h.2
    rw [logoutLoop, removeUserOf, h.1, hrest]
    exact ⟨_, rfl⟩

/-- A logout that gets to the shift without a user starts it at an index that was never set. -/
theorem reqLogout_eq_unset (h : LogoutShifts s a) (hu : findUser s.allUsers a = none) :
    (reqLogout s a).result = .error .unset := by
  rw [LogoutShifts, hu] at h
  obtain ⟨chnls', hl⟩ := exists_logoutLoop_none h
  rw [reqLogout, hu, hl]
  rfl

/-- The counters that a logout takes down are those of the channels its loop gets through, and that
of the users behind it, which is not 0 if there is a user to take out. -/
theorem lowered_logout_iff (hb : Bounded s)
    (hset : LogoutShifts s a → (findUser s.allUsers a).isSome) :
    (∀ n ∈ lowered s (.datagram a (.client .logout) drawn now), 0 ≤ n) ↔
      ∀ chnl ∈ logoutReach s a, chnl.numUsers ≠ 0 := by
  have hlast : ∀ n ∈ if LogoutShifts s a then [s.allUsers.count - 1] else [], 0 ≤ n := by
    split
    · next hshifts =>
      obtain ⟨usr, hu⟩ := Option.isSome_iff_exists.mp (hset hshifts)
      have hpos : 0 < s.allUsers.count := Table.count_pos_of_mem (List.mem_of_find?_eq_some hu)
      rw [List.forall_mem_singleton]
      omega
    · exact fun n hn => absurd hn List.not_mem_nil
  rw [lowered, List.forall_mem_append, and_iff_left hlast, List.forall_mem_map]
  refine forall₂_congr fun chnl hm => ?_
  have := (hb.users chnl (List.takeWhile_subset _ hm)).1
  omega

theorem lowered_leave_iff (hb : Bounded s) :
    (∀ n ∈ lowered s (.datagram a (.client (.leave c)) drawn now), 0 ≤ n) ↔
      ∀ chnl ∈ findChannel s.channels c,
        Removable s.heap (findUser s.allUsers a) chnl.entries → chnl.numUsers ≠ 0 := by
  rw [lowered]
  cases hf : findChannel s.channels c with
  | none => simp
  | some chnl =>
    have := (hb.users chnl (findChannel_some hf).1).1
    simp only [Option.mem_some_iff, forall_eq']
    split
    · next hgoes =>
      rw [List.forall_mem_singleton, imp_iff_right hgoes]
      omega
    · next hstays => simp [hstays]

/-- An input for which there is room takes no counter below 0, not even on its way to a fault. -/
theorem lowered_of_roomy (hb : Bounded s) (hroom : Roomy s i) : ∀ n ∈ lowered s i, 0 ≤ n := by
  rcases i with ⟨a, (rq | m), drawn, now⟩ | now | now
  · cases rq with
    | login u =>
      intro n hn
      obtain ⟨chnl, hm, rfl⟩ := List.mem_map.mp hn
      have := (hb.users chnl (List.mem_of_mem_take hm)).1
      omega
    | logout => exact (lowered_logout_iff hb hroom.2).mpr hroom.1
    | leave c => exact (lowered_leave_iff hb).mpr fun chnl hf hgoes => (hroom chnl hf hgoes).1
    | _ => exact fun n hn => absurd hn List.not_mem_nil
  all_goals exact fun n hn => absurd hn List.not_mem_nil

/-- There was room for an input that stores inside the arrays and takes no counter below 0, and for
a logout that sets the index it uses. -/
theorem roomy_of_inside (hb : Bounded s) (hin : ∀ st ∈ stores s i, st.Inside)
    (hlow : ∀ n ∈ lowered s i, 0 ≤ n)
    (hset : ∀ a drawn now, i = .datagram a (.client .logout) drawn now → LogoutShifts s a →
      (findUser s.allUsers a).isSome) : Roomy s i := by
  rcases i with ⟨a, (rq | m), drawn, now⟩ | now | now
  · cases rq with
    | login u => exact (inside_loginStores_iff hb).mp hin
    | join c => exact (inside_joinStores_iff hb).mp hin
    | leave c =>
      exact fun chnl hf hgoes => ⟨(lowered_leave_iff hb).mp hlow chnl hf hgoes,
        (inside_leaveStores_iff hb).mp hin chnl hf hgoes⟩
    | logout => exact ⟨(lowered_logout_iff hb (hset _ _ _ rfl)).mp hlow, hset _ _ _ rfl⟩
    | _ => exact trivial
  · cases m with
    | join c => exact (inside_servJoinStores_iff hb).mp hin
    | leave c => exact inside_servLeaveStores_iff.mp hin
    | say m => exact trivial
  · exact inside_timeouts_iff.mp hin
  · exact trivial

/-- **Where there is room**, and only there, an input stores inside the arrays, takes no counter
below 0 and shifts from no index that was never set; and then it leaves every counter within its
table. -/
theorem roomy_iff (hb : Bounded s) :
    Roomy s i ↔ (∀ st ∈ stores s i, st.Inside) ∧ (∀ n ∈ lowered s i, 0 ≤ n) ∧
      (∀ a drawn now, i = .datagram a (.client .logout) drawn now → LogoutShifts s a →
        (findUser s.allUsers a).isSome) ∧
      ∀ s', (react s i).result = .ok s' → Bounded s' := by
  constructor
  · intro hroom
    refine ⟨inside_of_roomy hb hroom, lowered_of_roomy hb hroom, ?_, fun _ h => hb.step hroom h⟩
    rintro a drawn now rfl
    exact hroom.2
  · rintro ⟨hin, hlow, hset, -⟩
    exact roomy_of_inside hb hin hlow hset

end Room

/-- **Every count stays within its table**, and every store inside its array, in every run of inputs
for which there is room where they are taken. -/
theorem counts_in_bounds (addrs : List Sockaddr) (unset now : ℤ) (is : List Input) (s : ServerState)
    (h : Run ServerState.next Roomy (ServerState.start addrs unset now) is s) :
    Bounded s ∧ ∀ i, Roomy s i →
      (∀ st ∈ stores s i, st.Inside) ∧ ∀ n ∈ lowered s i, 0 ≤ n := by
  have hb : Bounded s := by
    refine h.invariant (fun _ _ _ hb hroom hst => hb.step hroom (next_eq_some_iff.mp hst)) ?_
    refine bounded_iff.mpr ⟨Int.one_nonneg, Int.le_refl 0, fun chnl hm => ?_, fun srvr hm => ?_⟩
    · rw [List.mem_singleton.mp hm]
      exact Int.le_refl 0
    · obtain ⟨a, -, rfl⟩ := List.mem_map.mp hm
      exact Int.one_nonneg
  exact ⟨hb, fun i hroom => ⟨inside_of_roomy hb hroom, lowered_of_roomy hb hroom⟩⟩

namespace Three

/-- A user joins two channels, one of them new, and leaves that one; a neighbour joins another. -/
def visits : List Input :=
  [enter 0, ask 0 (.join common), ask 0 (.join chnlX), ask 0 (.leave chnlX),
    .datagram (addr 0) (.s2s (.join chnlX)) 0 5, .timeouts 60, ask 0 .list]

end Three

open Three in
theorem counts_in_bounds_on_visits :
    ∃ s, Run ServerState.next Roomy (ServerState.start [addr 0] 0 0) visits s ∧
      Bounded s ∧ ∀ i, Roomy s i →
        (∀ st ∈ stores s i, st.Inside) ∧ ∀ n ∈ lowered s i, 0 ≤ n := by
  have h : (execute ServerState.next Roomy (ServerState.start [addr 0] 0 0) visits).any
      (fun _ => true) = true := by
    decide
  obtain ⟨s, hr, -⟩ := exists_run_of_execute h
  exact ⟨s, hr, counts_in_bounds [addr 0] 0 0 visits s hr⟩

open Three in
/-- A user who has joined nothing logs out: the counter of Common is -1. It is so as well after a
leave of somebody who is not logged in. A user leaves the last channel and logs out twice: the
second time the counter of all users goes to -1. And a neighbour leaves a channel: a `NULL` is
stored behind the array of pointers. -/
theorem counts_out_of_bounds :
    (¬ ∀ (addrs : List Sockaddr) (unset now : ℤ) (is : List Input) (s : ServerState),
        Run ServerState.next (fun _ _ => True) (ServerState.start addrs unset now) is s →
        ∀ chnl ∈ s.channels.live, 0 ≤ chnl.numUsers) ∧
      (∃ s, Run ServerState.next (fun _ _ => True) alone [ask 0 (.leave common)] s ∧
        ∃ chnl ∈ s.channels.live, chnl.numUsers = -1) ∧
      (∃ s, Run ServerState.next (fun _ _ => True) alone
          [enter 0, ask 0 (.join common), ask 0 (.leave common), ask 0 .logout] s ∧
        -1 ∈ lowered s (ask 0 .logout)) ∧
      ¬ ∀ (addrs : List Sockaddr) (unset now : ℤ) (is : List Input) (s : ServerState) (i : Input),
        Run ServerState.next (fun _ _ => True) (ServerState.start addrs unset now) is s →
        ∀ st ∈ stores s i, st.Inside := by
  refine ⟨?_, ?_, ?_, ?_⟩
  · intro h
    have hex : (execute ServerState.next (fun _ _ => True) (ServerState.start [] 0 0)
        [enter 0, ask 0 .logout]).any
          (fun s => ∃ chnl ∈ s.channels.live, chnl.numUsers < 0) = true := by
      decide
    obtain ⟨s, hr, hs⟩ := exists_run_of_execute hex
    obtain ⟨chnl, hm, hlt⟩ := of_decide_eq_true hs
    have := h [] 0 0 _ s hr chnl hm
    omega
  · have hex : (execute ServerState.next (fun _ _ => True) alone [ask 0 (.leave common)]).any
        (fun s => ∃ chnl ∈ s.channels.live, chnl.numUsers = -1) = true := by
      decide
    obtain ⟨s, hr, hs⟩ := exists_run_of_execute hex
    exact ⟨s, hr, of_decide_eq_true hs⟩
  · have hex : (execute ServerState.next (fun _ _ => True) alone
        [enter 0, ask 0 (.join common), ask 0 (.leave common), ask 0 .logout]).any
          (fun s => -1 ∈ lowered s (ask 0 .logout)) = true := by
      decide
    obtain ⟨s, hr, hs⟩ := exists_run_of_execute hex
    exact ⟨s, hr, of_decide_eq_true hs⟩
  · intro h
    have hin := h [addr 0] 0 0 [] (ServerState.start [addr 0] 0 0)
      (.datagram (addr 0) (.s2s (.leave chnlX)) 0 5) (.nil _)
    revert hin
    decide

end DuckChat
