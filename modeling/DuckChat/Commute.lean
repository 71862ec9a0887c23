import DuckChat.Roster
import Mathlib.Logic.Function.Basic

/-!
# Requests on different channels

Joins and leaves shift and extend one array of channels in place. Looked up by name, the array is a
map from names to channels, and each of these requests replaces one value of the map: it creates
the channel, changes it or deletes it, by what the map holds there and by who asks. Two requests on
different names therefore commute, up to the order of the array, which nothing but the array shows.

## Main definitions

* `ServerState.byName` — the channels as a map
* `ChannelRequest` — a join or a leave, with what it makes of its channel and what it sends
* `Replaced` — a state in which one channel was replaced
* `Room`, `SameButOrder`

## Main results

* `handle_spec` — a request replaces its channel and sends its datagrams
* `requests_commute`
-/

set_option autoImplicit false

namespace DuckChat

/-- The channels as a map from names. -/
def ServerState.byName (s : ServerState) (c : Name) : Option Channel := findChannel s.channels c

/-- A request of a client on a channel that changes the channel. -/
inductive ChannelRequest where
  | join
  | leave
deriving DecidableEq

namespace ChannelRequest

/-- The branch of the `switch`. -/
def handle : ChannelRequest → ServerState → Sockaddr → Name → ℤ → Act ServerState
  | .join, s, a, c, now => reqJoin s a c now
  | .leave, s, a, c, _ => reqLeave s a c

/-- What a request of a user makes of the channel with the name. -/
def after (usr : User) (c : Name) (now : ℤ) :
    ChannelRequest → Option Channel → Except Fault (Option Channel)
  | .join, found => (addUser (found.getD (createChannel c now)) (some usr)).map some
  | .leave, none => .ok none
  | .leave, some chnl => .ok (if chnl.numUsers = 1 then none else some (chnl.expel usr.username))

/-- What it sends. -/
def sent (nbrs : List Sockaddr) (a : Sockaddr) (c : Name) :
    ChannelRequest → Option Channel → List Datagram
  | .join, _ => nbrs.map fun b => ⟨b, .s2s (.join c)⟩
  | .leave, none => [⟨a, .text (fillError c)⟩]
  | .leave, some chnl => if chnl.numUsers = 1 then nbrs.map fun b => ⟨b, .s2s (.leave c)⟩ else []

/-- The channels that it creates. -/
def creates : ChannelRequest → Option Channel → ℤ
  | .join, none => 1
  | _, _ => 0

/-- The channels that it deletes. -/
def deletes : ChannelRequest → Option Channel → ℤ
  | .leave, some chnl => if chnl.numUsers = 1 then 1 else 0
  | _, _ => 0

end ChannelRequest

/-- A state in which the channel with a name was replaced, and nothing else but the order of the
channels. -/
structure Replaced (s : ServerState) (c : Name) (r : Option Channel) (s' : ServerState) : Prop where
  byName : s'.byName = Function.update s.byName c r
  nodup : s'.names.Nodup
  allUsers : s'.allUsers = s.allUsers
  cnnctSrvrs : s'.cnnctSrvrs = s.cnnctSrvrs
  recentIds : s'.recentIds = s.recentIds
  heapNext : s'.heapNext = s.heapNext

/-- A request can be carried out: the channel can be read, and a join finds room. -/
structure ChannelRequest.Fits (q : ChannelRequest) (s : ServerState) (c : Name) : Prop where
  sound : ∀ chnl, s.byName c = some chnl → chnl.Sound s.heap
  users : q = .join → ∀ chnl, s.byName c = some chnl → chnl.numUsers < MAX_USERS
  channels : q = .join → s.byName c = none → 0 ≤ s.channels.count ∧ s.channels.count < MAX_USERS

section Requests

variable {s s' : ServerState} {a : Sockaddr} {c d : Name} {usr : User} {now : ℤ}
  {q : ChannelRequest} {r : Option Channel}

/-- `REQ_JOIN` for a channel that is there. -/
theorem reqJoin_found (now : ℤ) {chnl chnl' : Channel} (hf : s.byName c = some chnl)
    (hadd : addUser chnl (findUser s.allUsers a) = .ok chnl') :
    (reqJoin s a c now).result =
      .ok { s with channels := storeChannel s.channels c chnl' } := by
  rw [ServerState.byName] at hf
  refine Emit.bind_eq_ok_iff.mpr ⟨(), rfl, Emit.bind_eq_ok_iff.mpr
    ⟨(s.channels, chnl), ?_, Emit.bind_eq_ok_iff.mpr ⟨chnl', hadd, rfl⟩⟩⟩
  simp only [hf, Emit.lift_eq]

/-- `REQ_JOIN` for a new channel. -/
theorem reqJoin_new {chnls : Table Channel MAX_USERS} {chnl' : Channel} (hf : s.byName c = none)
    (ht : addChnl s.channels c now = .ok chnls)
    (hadd : addUser (createChannel c now) (findUser s.allUsers a) = .ok chnl') :
    (reqJoin s a c now).result = .ok { s with channels := storeChannel chnls c chnl' } := by
  rw [ServerState.byName] at hf
  refine Emit.bind_eq_ok_iff.mpr ⟨(), rfl, Emit.bind_eq_ok_iff.mpr
    ⟨(chnls, createChannel c now), ?_, Emit.bind_eq_ok_iff.mpr ⟨chnl', hadd, rfl⟩⟩⟩
  simp only [hf, ht, Emit.lift_eq]
  rfl

/-- What `REQ_LEAVE` sends. -/
theorem reqLeave_out_of_ok (h : (reqLeave s a c).result = .ok s') :
    (reqLeave s a c).out = ChannelRequest.leave.sent s.neighbours a c (s.byName c) := by
  cases hf : s.byName c with
  | none =>
    rw [ServerState.byName] at hf
    rw [reqLeave, hf]
    rfl
  | some chnl =>
    rw [ServerState.byName] at hf
    rcases reqLeave_ok (b := a) h with ⟨hn, -⟩ | ⟨chnl₀, ret, chnl', hf₀, hr, hk⟩
    · rw [hf] at hn
      cases hn
    · cases hf.symm.trans hf₀
      have hcount := (removeUserOf_ok hr).2.2.1
      simp only [ChannelRequest.sent]
      rcases hk with ⟨h0, -, ho⟩ | ⟨h0, -, ho⟩
      · rw [ho, if_neg (by omega)]
      · rw [ho, if_pos (by omega)]

theorem Replaced.of_same (hn : s.names.Nodup) (h : s.byName c = r) : Replaced s c r s :=
  ⟨by rw [← h, Function.update_eq_self], hn, rfl, rfl, rfl, rfl⟩

/-- A channel stored under its name, in a table that holds the other channels of the state. -/
theorem byName_storeChannel {chnls : Table Channel MAX_USERS} {chnl : Channel}
    (hchnls : ∀ d, d ≠ c → findChannel chnls d = s.byName d) (hc : c ∈ chnlNames chnls)
    (hn : chnl.chnlName = c) :
    ({ s with channels := storeChannel chnls c chnl } : ServerState).byName =
      Function.update s.byName c (some chnl) := by
  funext d
  by_cases hd : d = c
  · subst hd
    rw [Function.update_self]
    exact findChannel_storeChannel_self hn hc
  · rw [Function.update_of_ne hd, ← hchnls d hd]
    exact findChannel_storeChannel_of_ne hn hd

theorem join_spec (now : ℤ) (hn : s.names.Nodup) (hu : findUser s.allUsers a = some usr)
    (hfit : ChannelRequest.join.Fits s c) :
    ∃ r s', ChannelRequest.join.after usr c now (s.byName c) = .ok r ∧
      (reqJoin s a c now).result = .ok s' ∧ Replaced s c r s' ∧
      s'.channels.count = s.channels.count + ChannelRequest.join.creates (s.byName c) := by
  have hnames : ∀ {s'}, (reqJoin s a c now).result = .ok s' → s'.names.Nodup := by
    intro s' h
    rw [names_reqJoin h]
    split
    · exact hn
    · next hc => exact List.nodup_append'.mpr ⟨hn, List.nodup_singleton _, by simpa using hc⟩
  cases hf : s.byName c with
  | some chnl =>
    obtain ⟨chnl', hadd⟩ := exists_addUser (some usr) (hfit.sound chnl hf).1
      (hfit.users rfl chnl hf)
    have hname : chnl'.chnlName = c :=
      (addUser_eq_ok_iff.mp hadd).2.2.2.2.1.trans (findChannel_some hf).2
    have hok := reqJoin_found now hf (by rw [hu]; exact hadd)
    refine ⟨some chnl', _, ?_, hok, ⟨?_, hnames hok, rfl, rfl, rfl, rfl⟩, ?_⟩
    · simp only [ChannelRequest.after, Option.getD_some, hadd, Except.map]
    · exact byName_storeChannel (fun _ _ => rfl) (mem_chnlNames_of_find hf) hname
    · rw [count_storeChannel]
      exact (Int.add_zero _).symm
  | none =>
    obtain ⟨h0, hlt⟩ := hfit.channels rfl hf
    obtain ⟨chnls, ht⟩ := exists_store (createChannel c now) h0 hlt
    have ht : addChnl s.channels c now = .ok chnls := ht
    have hroom : (0 : ℤ) < MAX_USERS := by decide
    obtain ⟨chnl', hadd⟩ := exists_addUser (some usr)
      (show 0 ≤ (createChannel c now).numUsers from Int.le_refl 0) hroom
    have hname : chnl'.chnlName = c := (addUser_eq_ok_iff.mp hadd).2.2.2.2.1
    have hok := reqJoin_new hf ht (by rw [hu]; exact hadd)
    refine ⟨some chnl', _, ?_, hok, ⟨?_, hnames hok, rfl, rfl, rfl, rfl⟩, ?_⟩
    · simp only [ChannelRequest.after, Option.getD_none, hadd, Except.map]
    · refine byName_storeChannel (fun d hd => findChannel_addChnl_of_ne ht hd) ?_ hname
      rw [chnlNames_addChnl ht]
      exact List.mem_append_right _ (List.mem_singleton_self _)
    · rw [count_storeChannel]
      exact (addChnl_eq_ok_iff.mp ht).2.2.2

theorem leave_spec (now : ℤ) (hn : s.names.Nodup) (hu : findUser s.allUsers a = some usr)
    (hfit : ChannelRequest.leave.Fits s c) :
    ∃ r s', ChannelRequest.leave.after usr c now (s.byName c) = .ok r ∧
      (reqLeave s a c).result = .ok s' ∧ Replaced s c r s' ∧
      s'.channels.count = s.channels.count - ChannelRequest.leave.deletes (s.byName c) := by
  cases hf : s.byName c with
  | none =>
    refine ⟨none, s, rfl, ?_, .of_same hn hf, ?_⟩
    · rw [ServerState.byName] at hf
      rw [reqLeave, hf]
      rfl
    · exact (Int.sub_zero _).symm
  | some chnl =>
    have hok := (reqLeave_user_eq_ok_iff hf hu).mpr
      ⟨legible_of_readable (hfit.sound chnl hf).2, rfl⟩
    refine ⟨_, _, rfl, hok, ⟨?_, ?_, rfl, rfl, rfl, rfl⟩, ?_⟩
    · funext d
      rw [ServerState.byName, findChannel_afterLeave hn hf, Function.update_apply]
      rfl
    · rcases names_reqLeave hok with hnames | ⟨_, -, -, hnames⟩
      · rw [hnames]
        exact hn
      · rw [hnames]
        exact hn.erase c
    · simp only [ServerState.afterLeave, ChannelRequest.deletes]
      split
      · exact congrArg (· - 1) (count_storeChannel _ _ _)
      · rw [count_storeChannel, Int.sub_zero]

/-- **What a join or a leave does.** It replaces the channel with its name and sends its
datagrams. -/
theorem handle_spec (now : ℤ) (hn : s.names.Nodup) (hu : findUser s.allUsers a = some usr)
    (hfit : q.Fits s c) :
    ∃ r s', q.after usr c now (s.byName c) = .ok r ∧ (q.handle s a c now).result = .ok s' ∧
      (q.handle s a c now).out = q.sent s.neighbours a c (s.byName c) ∧ Replaced s c r s' ∧
      s'.channels.count =
        s.channels.count + q.creates (s.byName c) - q.deletes (s.byName c) := by
  cases q with
  | join =>
    obtain ⟨r, s', hr, hok, hrep, hcount⟩ := join_spec now hn hu hfit
    refine ⟨r, s', hr, hok, reqJoin_out s a c now, hrep, ?_⟩
    rw [hcount]
    exact (Int.sub_zero _).symm
  | leave =>
    obtain ⟨r, s', hr, hok, hrep, hcount⟩ := leave_spec now hn hu hfit
    refine ⟨r, s', hr, hok, reqLeave_out_of_ok hok, hrep, ?_⟩
    rw [hcount]
    exact congrArg (· - _) (Int.add_zero _).symm

end Requests

/-! ### Two requests -/

/-- Room for two requests, in either order: for the channels they create, and for the users they
add. -/
structure Room (s : ServerState) (q₁ q₂ : ChannelRequest) (c d : Name) : Prop where
  nonneg : q₁ = .join ∨ q₂ = .join → 0 ≤ s.channels.count
  channels : s.channels.count + q₁.creates (s.byName c) + q₂.creates (s.byName d) ≤ MAX_USERS
  users₁ : q₁ = .join → ∀ chnl, s.byName c = some chnl → chnl.numUsers < MAX_USERS
  users₂ : q₂ = .join → ∀ chnl, s.byName d = some chnl → chnl.numUsers < MAX_USERS

/-- Two states that differ at most in the order of the channels. -/
structure SameButOrder (s t : ServerState) : Prop where
  byName : s.byName = t.byName
  live : s.channels.live.Perm t.channels.live
  count : s.channels.count = t.channels.count
  allUsers : s.allUsers = t.allUsers
  cnnctSrvrs : s.cnnctSrvrs = t.cnnctSrvrs
  recentIds : s.recentIds = t.recentIds
  heapNext : s.heapNext = t.heapNext

section Pairs

variable {s s' t : ServerState} {a b : Sockaddr} {c d : Name} {usr usr₁ usr₂ : User} {now : ℤ}
  {q q₁ q₂ : ChannelRequest} {r : Option Channel}

theorem Room.symm (h : Room s q₁ q₂ c d) : Room s q₂ q₁ d c where
  nonneg hj := h.nonneg hj.symm
  channels := by
    have := h.channels
    omega
  users₁ := h.users₂
  users₂ := h.users₁

theorem creates_nonneg (q : ChannelRequest) (found : Option Channel) : 0 ≤ q.creates found := by
  cases q <;> cases found <;> simp [ChannelRequest.creates]

/-- A channel that is deleted was counted. -/
theorem deletes_bounds (q : ChannelRequest) (s : ServerState) (c : Name) :
    0 ≤ q.deletes (s.byName c) ∧
      (0 ≤ s.channels.count → q.deletes (s.byName c) ≤ s.channels.count) := by
  cases hf : s.byName c with
  | none => cases q <;> simp [ChannelRequest.deletes]
  | some chnl =>
    have hpos := Table.count_pos_of_mem (findChannel_some hf).1
    cases q with
    | join => exact ⟨Int.le_refl 0, id⟩
    | leave =>
      simp only [ChannelRequest.deletes]
      split <;> omega

/-- The first of two requests finds room. -/
theorem Room.fits (h : Room s q₁ q₂ c d) (hs : ∀ chnl ∈ s.channels.live, chnl.Sound s.heap) :
    q₁.Fits s c where
  sound chnl hf := hs chnl (findChannel_some hf).1
  users := h.users₁
  channels hj hnone := by
    have h0 := h.nonneg (Or.inl hj)
    have hle := h.channels
    have hother := creates_nonneg q₂ (s.byName d)
    have hone : q₁.creates (s.byName c) = 1 := by rw [hj, hnone]; rfl
    omega

/-- So does the second, after the first. -/
theorem Room.fits_after (h : Room s q₁ q₂ c d) (hcd : c ≠ d)
    (hs : ∀ chnl ∈ s.channels.live, chnl.Sound s.heap) (hrep : Replaced s c r s')
    (hcount : s'.channels.count =
      s.channels.count + q₁.creates (s.byName c) - q₁.deletes (s.byName c)) :
    q₂.Fits s' d := by
  have hd : s'.byName d = s.byName d := by rw [hrep.byName, Function.update_of_ne hcd.symm]
  have hheap : s'.heap = s.heap := by rw [ServerState.heap, hrep.allUsers, ServerState.heap]
  refine ⟨?_, ?_, ?_⟩
  · rw [hd, hheap]
    exact fun chnl hf => hs chnl (findChannel_some hf).1
  · rw [hd]
    exact h.users₂
  · intro hj hnone
    rw [hd] at hnone
    have h0 := h.nonneg (Or.inr hj)
    have hle := h.channels
    have hcr := creates_nonneg q₁ (s.byName c)
    obtain ⟨hdel0, hdel⟩ := deletes_bounds q₁ s c
    have hone : q₂.creates (s.byName d) = 1 := by rw [hj, hnone]; rfl
    have := hdel h0
    omega

/-- **One request after another**, on different channels: each does what it would have done
first. -/
theorem handle_handle (now : ℤ) (hn : s.names.Nodup)
    (hs : ∀ chnl ∈ s.channels.live, chnl.Sound s.heap) (hu₁ : findUser s.allUsers a = some usr₁)
    (hu₂ : findUser s.allUsers b = some usr₂) (hcd : c ≠ d) (hroom : Room s q₁ q₂ c d) :
    ∃ r₁ r₂ s₁ s₂, q₁.after usr₁ c now (s.byName c) = .ok r₁ ∧
      q₂.after usr₂ d now (s.byName d) = .ok r₂ ∧
      (q₁.handle s a c now >>= fun t => q₂.handle t b d now).result = .ok s₂ ∧
      (q₁.handle s a c now >>= fun t => q₂.handle t b d now).out =
        q₁.sent s.neighbours a c (s.byName c) ++ q₂.sent s.neighbours b d (s.byName d) ∧
      Replaced s c r₁ s₁ ∧ Replaced s₁ d r₂ s₂ ∧
      s₂.channels.count = s.channels.count + q₁.creates (s.byName c) - q₁.deletes (s.byName c) +
        q₂.creates (s.byName d) - q₂.deletes (s.byName d) := by
  obtain ⟨r₁, s₁, hr₁, hok₁, ho₁, hrep₁, hc₁⟩ := handle_spec now hn hu₁ (hroom.fits hs)
  obtain ⟨r₂, s₂, hr₂, hok₂, ho₂, hrep₂, hc₂⟩ := handle_spec now hrep₁.nodup
    (by rw [hrep₁.allUsers]; exact hu₂) (hroom.fits_after hcd hs hrep₁ hc₁)
  have hd : s₁.byName d = s.byName d := by rw [hrep₁.byName, Function.update_of_ne hcd.symm]
  have hnbrs : s₁.neighbours = s.neighbours := by
    rw [ServerState.neighbours, hrep₁.cnnctSrvrs, ServerState.neighbours]
  rw [hd] at hr₂ hc₂
  rw [hd, hnbrs] at ho₂
  refine ⟨r₁, r₂, s₁, s₂, hr₁, hr₂, Emit.bind_eq_ok_iff.mpr ⟨s₁, hok₁, hok₂⟩, ?_, hrep₁, hrep₂, ?_⟩
  · rw [Emit.out_bind_of_ok hok₁, ho₁, ho₂]
  · rw [hc₂, hc₁]

/-- Where names are distinct, the map determines the channels. -/
theorem perm_of_byName (hs : s.names.Nodup) (ht : t.names.Nodup) (h : s.byName = t.byName) :
    s.channels.live.Perm t.channels.live := by
  refine (List.perm_ext_iff_of_nodup hs.of_map ht.of_map).mpr fun chnl => ?_
  have hfind : findChannel s.channels chnl.chnlName = findChannel t.channels chnl.chnlName :=
    congrFun h chnl.chnlName
  constructor
  · intro hm
    exact (findChannel_some (hfind ▸ (findChannel_eq_some_iff hs).mpr ⟨hm, rfl⟩)).1
  · intro hm
    exact (findChannel_some (hfind.symm ▸ (findChannel_eq_some_iff ht).mpr ⟨hm, rfl⟩)).1

end Pairs

/-- **Joins and leaves of different channels commute**: both orders end well, in states that differ
in the order of the channels at most, and send the same datagrams. -/
theorem requests_commute (q₁ q₂ : ChannelRequest) {s : ServerState} {a b : Sockaddr} {c d : Name}
    (now : ℤ) (hn : s.names.Nodup) (hs : ∀ chnl ∈ s.channels.live, chnl.Sound s.heap)
    (ha : (findUser s.allUsers a).isSome) (hb : (findUser s.allUsers b).isSome) (hcd : c ≠ d)
    (hroom : Room s q₁ q₂ c d) :
    ∃ s₁ s₂, (q₁.handle s a c now >>= fun t => q₂.handle t b d now).result = .ok s₁ ∧
      (q₂.handle s b d now >>= fun t => q₁.handle t a c now).result = .ok s₂ ∧
      SameButOrder s₁ s₂ ∧
      (q₁.handle s a c now >>= fun t => q₂.handle t b d now).out.Perm
        (q₂.handle s b d now >>= fun t => q₁.handle t a c now).out := by
  obtain ⟨usr₁, hu₁⟩ := Option.isSome_iff_exists.mp ha
  obtain ⟨usr₂, hu₂⟩ := Option.isSome_iff_exists.mp hb
  obtain ⟨r₁, r₂, m₁, s₁, hr₁, hr₂, hok₁, ho₁, hrep₁, hrep₁', hc₁⟩ :=
    handle_handle now hn hs hu₁ hu₂ hcd hroom
  obtain ⟨r₂', r₁', m₂, s₂, hr₂', hr₁', hok₂, ho₂, hrep₂, hrep₂', hc₂⟩ :=
    handle_handle now hn hs hu₂ hu₁ hcd.symm hroom.symm
  cases hr₁.symm.trans hr₁'
  cases hr₂.symm.trans hr₂'
  have hby : s₁.byName = s₂.byName := by
    rw [hrep₁'.byName, hrep₁.byName, hrep₂'.byName, hrep₂.byName, Function.update_comm hcd]
  refine ⟨s₁, s₂, hok₁, hok₂, ⟨hby, perm_of_byName hrep₁'.nodup hrep₂'.nodup hby, by omega, ?_, ?_,
    ?_, ?_⟩, ?_⟩
  · rw [hrep₁'.allUsers, hrep₁.allUsers, hrep₂'.allUsers, hrep₂.allUsers]
  · rw [hrep₁'.cnnctSrvrs, hrep₁.cnnctSrvrs, hrep₂'.cnnctSrvrs, hrep₂.cnnctSrvrs]
  · rw [hrep₁'.recentIds, hrep₁.recentIds, hrep₂'.recentIds, hrep₂.recentIds]
  · rw [hrep₁'.heapNext, hrep₁.heapNext, hrep₂'.heapNext, hrep₂.heapNext]
  · rw [ho₁, ho₂]
    exact List.perm_append_comm

open Three in
/-- The only user of Common leaves it and joins another channel. -/
theorem requests_commute_withUser :
    ∃ s₁ s₂, (ChannelRequest.leave.handle (withUser 1) (client 1) common 0 >>=
        fun t => ChannelRequest.join.handle t (client 1) chnlX 0).result = .ok s₁ ∧
      (ChannelRequest.join.handle (withUser 1) (client 1) chnlX 0 >>=
        fun t => ChannelRequest.leave.handle t (client 1) common 0).result = .ok s₂ ∧
      SameButOrder s₁ s₂ := by
  have hroom : Room (withUser 1) .leave .join common chnlX :=
    ⟨fun _ => (by decide), by decide, (by rintro ⟨⟩), (by rintro - chnl ⟨⟩)⟩
  obtain ⟨s₁, s₂, h₁, h₂, hsame, -⟩ := requests_commute .leave .join (a := client 1)
    (b := client 1) 0 (by decide) (by decide) (by decide) (by decide) (by decide) hroom
  exact ⟨s₁, s₂, h₁, h₂, hsame⟩

end DuckChat
