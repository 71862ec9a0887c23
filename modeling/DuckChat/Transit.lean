import DuckChat.NetworkRules

/-!
# Withdrawing a channel

`REQ_LEAVE` withdraws a channel from a server when its last local user goes. The handler looks at
the channel's own counter only; `REQ_SERV_SAY` stops carrying a channel when, besides, at most one
neighbour is subscribed. So a server between two subscribed neighbours is taken out of the channel
by its last local user: the two handlers agree exactly when the second test would have passed too.

## Main definitions

* `KeepsTransit` — the rule of `REQ_SERV_SAY`, applied to a `REQ_LEAVE`

## Main results

* `keepsTransit_iff`
-/

set_option autoImplicit false

namespace DuckChat

section Leave

variable {s : ServerState} {a : Sockaddr} {c : Name} {chnl chnl' : Channel} {usr : User}
  {e : Option User}

/-- The rule: the channel is deleted and a leave is sent only where at most one neighbour is
subscribed; where two or more are, the channel and the subscriptions stay and nothing is sent. -/
def KeepsTransit (s : ServerState) (a : Sockaddr) (c : Name) : Prop :=
  ∀ s', (reqLeave s a c).result = .ok s' →
    (c ∉ s'.names ∧ (∃ b, (⟨b, .s2s (.leave c)⟩ : Datagram) ∈ (reqLeave s a c).out) →
        hasChannelServers s.cnnctSrvrs c ≤ 1) ∧
      (2 ≤ hasChannelServers s.cnnctSrvrs c →
        c ∈ s'.names ∧ s'.cnnctSrvrs = s.cnnctSrvrs ∧
          ∀ b, (⟨b, .s2s (.leave c)⟩ : Datagram) ∉ (reqLeave s a c).out)

/-- The last local user leaves: the channel is deleted, and every neighbour is told. -/
theorem reqLeave_last (hf : findChannel s.channels c = some chnl)
    (hu : findUser s.allUsers a = some usr)
    (hr : removeUser s.heap chnl usr.username = .ok (some e, chnl')) (h0 : chnl'.numUsers = 0) :
    (reqLeave s a c).result =
        .ok { s with channels := removeChnl (storeChannel s.channels c chnl') c } ∧
      (reqLeave s a c).out = s.neighbours.map fun b => ⟨b, .s2s (.leave c)⟩ := by
  have hn : chnl'.chnlName = c := (removeUser_ok hr).1.trans (findChannel_some hf).2
  have hok : (reqLeave s a c).result =
      .ok { s with channels := removeChnl (storeChannel s.channels c chnl') c } := by
    rw [reqLeave, hf, hu]
    simp only [removeUserOf, Emit.lift_eq, Emit.mk_ok_bind, hr, if_pos h0]
    rfl
  refine ⟨hok, ?_⟩
  rcases reqLeave_ok (b := a) hok with ⟨hnone, -⟩ | ⟨ch, ret, ch', hf', hr', hk⟩
  · rw [hf] at hnone
    cases hnone
  · rw [hf] at hf'
    cases hf'
    rw [hu, removeUserOf, hr] at hr'
    cases hr'
    rcases hk with ⟨hne, -⟩ | ⟨-, -, ho⟩
    · exact absurd h0 hne
    · exact ho

/-- **When a transit server is not withdrawn.** In every reachable state, the leave of a member
that empties a channel keeps the rule if and only if at most one neighbour is subscribed. -/
theorem keepsTransit_iff {addrs : List Sockaddr} (hs : Reachable addrs s)
    (hf : findChannel s.channels c = some chnl) (hu : findUser s.allUsers a = some usr)
    (hr : removeUser s.heap chnl usr.username = .ok (some e, chnl')) (h0 : chnl'.numUsers = 0) :
    KeepsTransit s a c ↔ hasChannelServers s.cnnctSrvrs c ≤ 1 := by
  obtain ⟨hok, hout⟩ := reqLeave_last hf hu hr h0
  have hn : chnl'.chnlName = c := (removeUser_ok hr).1.trans (findChannel_some hf).2
  have hst : chnlNames (storeChannel s.channels c chnl') = s.names := chnlNames_storeChannel hn
  have hgone : c ∉ chnlNames (removeChnl (storeChannel s.channels c chnl') c) := by
    rw [chnlNames_removeChnl (by rw [hst]; exact mem_chnlNames_of_find hf), hst]
    exact hs.nodup_names.not_mem_erase
  constructor
  · intro hrule
    by_contra hlt
    exact hgone ((hrule _ hok).2 (by omega)).1
  · intro hle s' _
    exact ⟨fun _ => hle, fun hge => absurd hge (by omega)⟩

end Leave

/-! ### Two subscribed neighbours -/

open Three in
theorem keepsTransit_iff_withUser :
    KeepsTransit (withUser 1) (client 1) common ↔
      hasChannelServers (withUser 1).cnnctSrvrs common ≤ 1 :=
  keepsTransit_iff (e := some (user 1))
    reachable_withUser (by rfl) (by rfl) (by rfl) (by rfl)

open Three in
/-- Both neighbours of the middle of the line are subscribed to Common, and its only user leaves:
the server withdraws. -/
theorem not_keepsTransit_withUser :
    ¬ ∀ (addrs : List Sockaddr) (s : ServerState) (a : Sockaddr) (c : Name) (chnl chnl' : Channel)
        (usr : User) (e : Option User), Reachable addrs s → findChannel s.channels c = some chnl →
        findUser s.allUsers a = some usr →
        removeUser s.heap chnl usr.username = .ok (some e, chnl') → chnl'.numUsers = 0 →
        KeepsTransit s a c := by
  intro h
  have hrule := h (line.nbrAddrs 1) (withUser 1) (client 1) common
    ⟨common, Table.ofList [some (user 1)] (by decide), 0⟩
    ⟨common, Table.empty, 0⟩ (user 1) (some (user 1))
    reachable_withUser (by rfl) (by rfl) (by rfl) (by rfl)
  have hkeep := ((hrule { withUser 1 with channels := Table.empty } (by rfl)).2 (by decide)).1
  exact absurd hkeep (by decide)

end DuckChat
