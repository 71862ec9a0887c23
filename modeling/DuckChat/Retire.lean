import DuckChat.SlotZero

/-!
# Channels that have become empty

A channel that loses its last user here should go from the table, and the neighbours be told. A
leave does both. A logout takes the user out of every channel and looks no further: the channel
stays, with nobody in it, is listed, renewed, and subscribed to.

## Main definitions

* `Retired` — what should become of a channel that is empty
* `Empties` — an input that takes the last user of a channel

## Main results

* `Empties.retired`, `Empties.kept` — the two ways out
* `retired_iff_ne_logout` — a leave retires a channel, a logout never does
-/

set_option autoImplicit false

namespace DuckChat

/-- The neighbours that are sent a leave of a channel, in order, one entry for each packet. -/
def leavesOf (c : Name) (out : List Datagram) : List Sockaddr :=
  (out.filter fun d => d.payload = .s2s (.leave c)).map Datagram.dest

/-- The channel is gone, and each neighbour has been told once. -/
structure Retired (s s' : ServerState) (out : List Datagram) (c : Name) : Prop where
  gone : c ∉ s'.names
  announced : leavesOf c out = s.neighbours

/-- An input that ends well and takes the last user of a channel. -/
structure Empties (s : ServerState) (i : Input) (s' : ServerState) (c : Name) : Prop where
  ends : (react s i).result = .ok s'
  before : s.usersOf c ≠ []
  after : s'.usersOf c = []

/-- The requests that end a membership. -/
def ClientRequest.isParting : ClientRequest → Bool
  | .leave _ => true
  | .logout => true
  | _ => false

section Retire

variable {addrs : List Sockaddr} {s s' : ServerState} {a : Sockaddr} {c d : Name} {drawn : Id}
  {now : ℤ}

@[simp] theorem leavesOf_map_leave (c : Name) (nbrs : List Sockaddr) :
    leavesOf c (nbrs.map fun b => ⟨b, .s2s (.leave c)⟩) = nbrs := by
  induction nbrs with
  | nil => rfl
  | cons b nbrs ih => simpa [leavesOf] using ih

/-- **A leave retires the channel it empties.** Its roster had one entry, so the counter was 1. -/
theorem Empties.retired (hs : Reachable addrs s)
    (h : Empties s (.datagram a (.client (.leave d)) drawn now) s' c) :
    Retired s s' (react s (.datagram a (.client (.leave d)) drawn now)).out c := by
  have hok : (reqLeave s a d).result = .ok s' := h.ends
  obtain ⟨chnl, hf, husers⟩ := exists_find_of_usersOf h.before
  have hafter := h.after
  rcases reqLeave_ok (b := a) hok with ⟨-, rfl, -⟩ | ⟨chnl', ret, left, hf', hr, hk⟩
  · exact absurd hafter h.before
  obtain ⟨-, u, -, heq⟩ := (reqLeave_eq_ok_iff hf').mp hok
  rw [heq, usersOf_afterLeave hs.nodup_names hf'] at hafter
  by_cases hcd : c = d
  · subst hcd
    obtain rfl : chnl = chnl' := Option.some.inj (hf.symm.trans hf')
    have hlen : chnl.entries.length = 1 := by
      have hpos := List.length_pos_iff.mpr (husers ▸ h.before)
      rw [if_pos rfl] at hafter
      have hwithout : (without u chnl.entries).length = chnl.entries.length - 1 :=
        length_without
      rw [hafter, List.length_nil] at hwithout
      omega
    have h1 : chnl.numUsers = 1 := by
      have hl := chnl.connectedUsers.length_live
      rw [Channel.entries, hl] at hlen
      rw [Channel.numUsers]
      omega
    have hcount := (removeUserOf_ok hr).2.2.1
    refine ⟨?_, ?_⟩
    · rw [names_reqLeave_last hok hf h1]
      exact hs.nodup_names.not_mem_erase
    · rcases hk with ⟨hne, -⟩ | ⟨-, -, hout⟩
      · omega
      · show leavesOf c (reqLeave s a c).out = s.neighbours
        rw [hout, leavesOf_map_leave]
  · rw [if_neg hcd] at hafter
    exact absurd hafter h.before

/-- **A logout keeps it**, and says nothing. -/
theorem Empties.kept (h : Empties s (.datagram a (.client .logout) drawn now) s' c) :
    c ∈ s'.names ∧ (react s (.datagram a (.client .logout) drawn now)).out = [] := by
  obtain ⟨chnl, hf, -⟩ := exists_find_of_usersOf h.before
  refine ⟨?_, reqLogout_out s a⟩
  rw [(reqLogout_ok h.ends).2.2]
  exact mem_chnlNames_of_find hf

end Retire

/-- **Only a leave retires a channel.** When a leave or a logout takes the last user of a channel
from a server that can be reached, the channel goes and each neighbour is told once exactly if the
request is no logout. -/
theorem retired_iff_ne_logout (addrs : List Sockaddr) (s s' : ServerState) (a : Sockaddr)
    (rq : ClientRequest) (drawn : Id) (now : ℤ) (c : Name) (hs : Reachable addrs s)
    (hrq : rq.isParting = true) (h : Empties s (.datagram a (.client rq) drawn now) s' c) :
    Retired s s' (react s (.datagram a (.client rq) drawn now)).out c ↔ rq ≠ .logout := by
  cases rq with
  | leave d => exact ⟨fun _ => ClientRequest.noConfusion, fun _ => h.retired hs⟩
  | logout => exact ⟨fun hr => absurd h.kept.1 hr.gone, fun hne => absurd rfl hne⟩
  | _ => cases hrq

/-- The input takes the last user of a channel, by evaluation. -/
theorem empties_of_toOption {s : ServerState} {i : Input} {c : Name}
    (h : (react s i).result.toOption.any (fun s' => s.usersOf c ≠ [] ∧ s'.usersOf c = []) = true) :
    ∃ s', Empties s i s' c := by
  cases hr : (react s i).result with
  | error f => rw [hr] at h; cases h
  | ok s' =>
    rw [hr] at h
    obtain ⟨hb, ha⟩ := of_decide_eq_true h
    exact ⟨s', hr, hb, ha⟩

namespace Three

/-- One user, who joins Common and another channel; there is one neighbour. -/
def lonely : List Input := [enter 0, ask 0 (.join common), ask 0 (.join chnlX)]

/-- A state in which a request takes the last user of a channel that no neighbour is subscribed
to. -/
theorem exists_lonely (rq : ClientRequest)
    (h : (execute ServerState.next (fun _ _ => True) (ServerState.start [addr 0] 0 0) lonely).any
      (fun s => hasChannelServers s.cnnctSrvrs chnlX ≤ 1 ∧
        (react s (ask 0 rq)).result.toOption.any
          (fun s' => s.usersOf chnlX ≠ [] ∧ s'.usersOf chnlX = []) = true) = true) :
    ∃ s s', Reachable [addr 0] s ∧ hasChannelServers s.cnnctSrvrs chnlX ≤ 1 ∧
      Empties s (ask 0 rq) s' chnlX := by
  obtain ⟨s, hr, hs⟩ := exists_run_of_execute h
  obtain ⟨hle, hopt⟩ := of_decide_eq_true hs
  obtain ⟨s', he⟩ := empties_of_toOption hopt
  exact ⟨s, s', Reachable.of_run (.start 0 0) hr, hle, he⟩

end Three

open Three in
theorem retired_on_lonely :
    ∃ s s', Empties s (ask 0 (.leave chnlX)) s' chnlX ∧
      (Retired s s' (react s (ask 0 (.leave chnlX))).out chnlX ↔
        ClientRequest.leave chnlX ≠ .logout) := by
  obtain ⟨s, s', hs, -, he⟩ := exists_lonely (.leave chnlX) (by decide)
  exact ⟨s, s', he,
    retired_iff_ne_logout [addr 0] s s' (client 0) (.leave chnlX) 0 0 chnlX hs rfl he⟩

open Three in
/-- The only user of a channel logs out: the channel is still there. -/
theorem not_retired_on_lonely :
    ¬ ∀ (addrs : List Sockaddr) (s s' : ServerState) (a : Sockaddr) (rq : ClientRequest)
        (drawn : Id) (now : ℤ) (c : Name), Reachable addrs s →
        hasChannelServers s.cnnctSrvrs c ≤ 1 → rq.isParting = true →
        Empties s (.datagram a (.client rq) drawn now) s' c →
        Retired s s' (react s (.datagram a (.client rq) drawn now)).out c := by
  intro h
  obtain ⟨s, s', hs, hle, he⟩ := exists_lonely .logout (by decide)
  have hret := h [addr 0] s s' (client 0) .logout 0 0 chnlX hs hle rfl he
  exact hret.gone (Empties.kept he).1

end DuckChat
