import DuckChat.Commute
import DuckChat.Lookups
import DuckChat.Replies
import DuckChat.Lib.Service

/-!
# A server as a chat service

What the tables of a server stand for: an address is logged in under the name of its user, and a
channel is the room of the addresses of its users. As long as the tables are in order, a courteous
request does to the tables what its command does to the service, and the texts that are sent are
what the service tells.

In order means that each user is logged in once, under a name of its own, and has at most one entry
in a channel, and that the counters are right. The courtesy of a logout is a real condition: the
request takes one entry out of *every* channel, whoever's it is, and one from its counter when there
is none.

## Main definitions

* `ServerState.service`, `Input.command`, `Shows` — what tables, inputs and texts stand for
* `Proper` — tables that are in order
* `HasRoom` — the tables have room for what a request adds

## Main results

* `Proper.login`, `Proper.logout`, `Proper.join`, `Proper.leave` — the requests that change who is
  where
-/

set_option autoImplicit false

namespace DuckChat

/-! ### What things stand for -/

abbrev ChatService : Type := Service Sockaddr Username Name

abbrev ChatCommand : Type := Command Sockaddr Username Name SayText

abbrev ChatNotice : Type := Notice Username Name SayText

/-- The addresses of the users of a channel. -/
def Channel.members (chnl : Channel) : Finset Sockaddr :=
  (chnl.entries.filterMap fun e => e.map User.address).toFinset

/-- The service that the tables stand for. -/
def ServerState.service (s : ServerState) : ChatService where
  user a := (findUser s.allUsers a).map User.username
  room c := (s.byName c).map Channel.members

/-- What an input tells the service to do. A join of a server is a room opened elsewhere, its say is
something said elsewhere. -/
def Input.command : Input → ChatCommand
  | .datagram a (.client (.login u)) _ _ => .login a u
  | .datagram a (.client .logout) _ _ => .logout a
  | .datagram a (.client (.join c)) _ _ => .join a c
  | .datagram a (.client (.leave c)) _ _ => .leave a c
  | .datagram a (.client (.say c t)) _ _ => .say a c t
  | .datagram a (.client .list) _ _ => .list a
  | .datagram a (.client (.who c)) _ _ => .who a c
  | .datagram _ (.client (.other _)) _ _ => .idle
  | .datagram _ (.s2s (.join c)) _ _ => .opened c
  | .datagram _ (.s2s (.leave _)) _ _ => .idle
  | .datagram _ (.s2s (.say m)) _ _ => .relay m.reqChannel m.reqUsername m.reqText
  | .timeouts _ => .idle
  | .renewal _ => .idle

/-- The texts to an address. -/
def textsFor (b : Sockaddr) (out : List Datagram) : List Text :=
  out.filterMap fun d =>
    match d.payload with
    | .text t => if d.dest = b then some t else none
    | .s2s _ => none

/-- A text that says what a notice says. A list and a who name everything once, in some order. -/
def Text.Tells : Text → ChatNotice → Prop
  | .say c u t, .said c' u' t' => c = c' ∧ u = u' ∧ t = t'
  | .list names, .rooms cs => names.Nodup ∧ ∀ c, c ∈ names ↔ c ∈ cs
  | .who c n users _, .members c' us =>
      c = c' ∧ n = users.length ∧ users.Nodup ∧ ∀ u, u ∈ users ↔ u ∈ us
  | .error str, .unknown c => fillError c = .error str ∨ whoError c = .error str
  | _, _ => False

/-- Everybody gets a text for each notice, and no other. -/
def Shows (out : List Datagram) (v : Sockaddr → Option (ChatNotice)) : Prop :=
  ∀ b, List.Forall₂ Text.Tells (textsFor b out) (v b).toList

/-- Tables that are in order. -/
structure Proper (s : ServerState) : Prop where
  channels : 0 ≤ s.channels.count
  names : s.names.Nodup
  allUsers : 0 ≤ s.allUsers.count
  addresses : (s.heap.map User.address).Nodup
  usernames : (s.heap.map User.username).Nodup
  rosters : ∀ c chnl, s.byName c = some chnl → chnl.Sound s.heap ∧ chnl.entries.Nodup

/-- The tables have room for what a request adds, and the reply to a who for the last name. -/
def HasRoom (s : ServerState) : ClientRequest → Prop
  | .login _ => s.allUsers.count < MAX_USERS
  | .join c => c ∈ s.names ∨ s.channels.count < MAX_USERS
  | .say _ _ => s.recentIds.numIds ≠ INT_MAX
  | .who c => ∀ chnl ∈ s.byName c, WhoFits s c chnl
  | _ => True

section Basics

variable {s s' : ServerState} {a b : Sockaddr} {c : Name} {chnl : Channel} {usr v : User}

theorem mem_members : a ∈ chnl.members ↔ ∃ e ∈ chnl.entries, isAt a e = true := by
  simp only [Channel.members, List.mem_toFinset, List.mem_filterMap]
  refine exists_congr fun e => and_congr_right fun _ => ?_
  cases e with
  | none => simp [isAt, hasUser]
  | some v => simp

theorem mem_present : a ∈ s.service.present c ↔ ∃ e ∈ s.usersOf c, isAt a e = true := by
  show a ∈ ((s.byName c).map Channel.members).getD ∅ ↔ _
  rw [ServerState.usersOf, ServerState.byName]
  cases findChannel s.channels c with
  | none => simp
  | some chnl => exact mem_members

namespace Proper

theorem findUser_eq (h : Proper s) (hv : v ∈ s.heap) : findUser s.allUsers v.address = some v := by
  obtain ⟨w, hw⟩ : ∃ w, findUser s.allUsers v.address = some w :=
    Option.isSome_iff_exists.mp (List.find?_isSome.mpr ⟨v, hv, addrCmp_iff.mpr rfl⟩)
  obtain ⟨hwh, hwa⟩ := mem_heap_of_findUser hw
  rw [hw, List.inj_on_of_nodup_map h.addresses hwh hv hwa]

/-- An entry at an address is that of the user who is logged in there. -/
theorem entry_eq (h : Proper s) (hf : s.byName c = some chnl)
    (hu : findUser s.allUsers a = some usr) {e : Option User} (he : e ∈ chnl.entries)
    (hea : isAt a e = true) : e = some usr := by
  obtain ⟨v, hv, rfl⟩ := (h.rosters c chnl hf).1.2 e he
  obtain ⟨huh, hua⟩ := mem_heap_of_findUser hu
  rw [List.inj_on_of_nodup_map h.addresses hv huh ((isAt_some.mp hea).trans hua.symm)]

theorem mem_entries (h : Proper s) (hf : s.byName c = some chnl)
    (hu : findUser s.allUsers a = some usr) (ha : a ∈ chnl.members) : some usr ∈ chnl.entries := by
  obtain ⟨e, he, hea⟩ := mem_members.mp ha
  rw [← h.entry_eq hf hu he hea]
  exact he

/-- Whoever has an entry is logged in. -/
theorem exists_findUser (h : Proper s) (hf : s.byName c = some chnl) (ha : a ∈ chnl.members) :
    ∃ usr, findUser s.allUsers a = some usr ∧ some usr ∈ chnl.entries := by
  obtain ⟨e, he, hea⟩ := mem_members.mp ha
  obtain ⟨v, hv, rfl⟩ := (h.rosters c chnl hf).1.2 e he
  have hva : v.address = a := isAt_some.mp hea
  exact ⟨v, hva ▸ h.findUser_eq hv, he⟩

/-- A removal by name takes out the entry of the user, which is the only one. -/
theorem expel (h : Proper s) (hf : s.byName c = some chnl) (hv : some v ∈ chnl.entries) :
    ∃ l₁ l₂, chnl.entries = l₁ ++ some v :: l₂ ∧
      (chnl.expel v.username).entries = l₁ ++ l₂ ∧ some v ∉ l₁ ++ l₂ := by
  obtain ⟨⟨-, hread⟩, hnd⟩ := h.rosters c chnl hf
  have hgoes : goes v.username chnl.entries = some (some v) := by
    obtain ⟨e, he⟩ : ∃ e, chnl.entries.find? (isNamed v.username) = some e :=
      Option.isSome_iff_exists.mp (List.find?_isSome.mpr ⟨some v, hv, isNamed_some.mpr rfl⟩)
    obtain ⟨w, hw, rfl⟩ := hread e (List.mem_of_find?_eq_some he)
    obtain ⟨x, hx, hxv⟩ := hread _ hv
    obtain rfl : v = x := Option.some.inj hxv
    have hwn : w.username = v.username := isNamed_some.mp (List.find?_some he)
    rw [goes, he, Option.some_or, List.inj_on_of_nodup_map h.usernames hw hx hwn]
  obtain ⟨l₁, l₂, hl, hw⟩ := exists_without hgoes
  refine ⟨l₁, l₂, hl, by rw [entries_expel, hw], ?_⟩
  rw [hl] at hnd
  exact (List.nodup_cons.mp (List.nodup_middle.mp hnd)).1

theorem members_expel (h : Proper s) (hf : s.byName c = some chnl) (hv : some v ∈ chnl.entries) :
    (chnl.expel v.username).members = chnl.members.erase v.address := by
  obtain ⟨l₁, l₂, hl, hw, hno⟩ := h.expel hf hv
  obtain ⟨x, hx, hxv⟩ := (h.rosters c chnl hf).1.2 _ hv
  obtain rfl : v = x := Option.some.inj hxv
  have hown : ∀ e ∈ l₁ ++ l₂, isAt v.address e = true → False := by
    intro e he hea
    have hmem : e ∈ chnl.entries := by
      rw [hl]
      exact (List.sublist_append_right [some v] l₂).append_left l₁ |>.subset he
    rw [h.entry_eq hf (h.findUser_eq hx) hmem hea] at he
    exact hno he
  ext b
  rw [Finset.mem_erase, mem_members, mem_members, hw]
  constructor
  · rintro ⟨e, he, heb⟩
    refine ⟨?_, e, ?_, heb⟩
    · rintro rfl
      exact hown e he heb
    · rw [hl]
      exact (List.sublist_append_right [some v] l₂).append_left l₁ |>.subset he
  · rintro ⟨hb, e, he, heb⟩
    refine ⟨e, ?_, heb⟩
    rw [hl] at he
    rcases List.mem_append.mp he with he | he
    · exact List.mem_append_left _ he
    · rcases List.mem_cons.mp he with rfl | he
      · exact absurd (isAt_some.mp heb).symm hb
      · exact List.mem_append_right _ he

/-- A channel has no more entries than there are users, and fewer when one of them is elsewhere. -/
theorem length_entries_le (h : Proper s) (hf : s.byName c = some chnl) :
    chnl.entries.length ≤ s.heap.length ∧
      ∀ v ∈ s.heap, some v ∉ chnl.entries → chnl.entries.length < s.heap.length := by
  obtain ⟨⟨-, hread⟩, hnd⟩ := h.rosters c chnl hf
  obtain ⟨users, hus⟩ := exists_users hread
  have hnd' : users.Nodup := by
    rw [hus] at hnd
    exact hnd.of_map
  have hsub : ∀ w ∈ users, w ∈ s.heap := by
    intro w hw
    obtain ⟨x, hx, hxw⟩ := hread (some w) (by rw [hus]; exact List.mem_map_of_mem hw)
    rwa [Option.some.inj hxw]
  have hlen : chnl.entries.length = users.length := by rw [hus, List.length_map]
  rw [hlen]
  refine ⟨(hnd'.subperm hsub).length_le, fun v hv hno => ?_⟩
  have hcons : (v :: users).Nodup := List.nodup_cons.mpr
    ⟨fun hm => hno (by rw [hus]; exact List.mem_map_of_mem hm), hnd'⟩
  exact (hcons.subperm (List.forall_mem_cons.mpr ⟨hv, hsub⟩)).length_le

end Proper

end Basics

/-! ### Tables that did not change -/

section Frames

variable {s s' : ServerState}

theorem map_membership_byName (s : ServerState) (c : Name) :
    (s.byName c).map Channel.membership =
      (s.channels.live.map Channel.membership).find? fun x => x.1 == c := by
  rw [List.find?_map]
  rfl

/-- Channels that differ in their renewal times stand for the same rooms. -/
theorem Proper.of_same (h : Proper s) (s' : ServerState) (hu : s'.allUsers = s.allUsers)
    (hc : s'.channels.count = s.channels.count)
    (hm : s'.channels.live.map Channel.membership = s.channels.live.map Channel.membership) :
    Proper s' ∧ s'.service = s.service := by
  have hheap : s'.heap = s.heap := by rw [ServerState.heap, hu, ServerState.heap]
  have hby : ∀ c, (s'.byName c).map Channel.membership = (s.byName c).map Channel.membership := by
    intro c
    rw [map_membership_byName, map_membership_byName, hm]
  have hnames : s'.names = s.names := by
    have hfst := congrArg (List.map Prod.fst) hm
    rw [List.map_map, List.map_map] at hfst
    exact hfst
  refine ⟨⟨?_, ?_, ?_, ?_, ?_, fun c chnl hf => ?_⟩, ?_⟩
  · rw [hc]
    exact h.channels
  · rw [hnames]
    exact h.names
  · rw [hu]
    exact h.allUsers
  · rw [hheap]
    exact h.addresses
  · rw [hheap]
    exact h.usernames
  · have heq := hby c
    rw [hf] at heq
    obtain ⟨old, hold, hmem⟩ := Option.map_eq_some_iff.mp heq.symm
    have htab : old.connectedUsers = chnl.connectedUsers := congrArg Prod.snd hmem
    have hold := h.rosters c old hold
    rw [Channel.Sound, Channel.numUsers, Channel.entries, htab] at hold
    rw [hheap]
    exact hold
  · ext a : 2
    · show (findUser s'.allUsers a).map _ = (findUser s.allUsers a).map _
      rw [hu]
    · have hroom := congrArg (Option.map fun x : Name × Table (Option User) MAX_USERS =>
        (x.2.live.filterMap fun e => e.map User.address).toFinset) (hby a)
      rw [Option.map_map, Option.map_map] at hroom
      exact hroom

theorem Proper.of_channels (h : Proper s) (s' : ServerState)
    (hu : s'.allUsers = s.allUsers) (hc : s'.channels = s.channels) :
    Proper s' ∧ s'.service = s.service :=
  h.of_same s' hu (by rw [hc]) (by rw [hc])

end Frames

/-! ### Requests of clients

Each request: when it is courteous and has room it ends well, and the tables, the state that they
stand for and the texts are as they should be. -/

/-- An input did to the tables what its command does to the service, and told what it tells. -/
structure Served (s : ServerState) (i : Input) (s' : ServerState) : Prop where
  result : (react s i).result = .ok s'
  proper : Proper s'
  service : s'.service = s.service.apply i.command
  shows : Shows (react s i).out (s.service.notices i.command)

section Requests

variable {s s' : ServerState} {a b : Sockaddr} {c : Name} {u : Username} {usr v : User}
  {t : SayText} {drawn : Id} {now : ℤ}

/-- What is sent to servers is no text. -/
theorem shows_nothing {out : List Datagram} (h : ∀ d ∈ out, ∃ m, d.payload = .s2s m) :
    Shows out fun _ => none := by
  intro b
  have hnil : textsFor b out = [] := by
    refine List.filterMap_eq_nil_iff.mpr fun d hd => ?_
    obtain ⟨m, hm⟩ := h d hd
    rw [hm]
  rw [hnil]
  exact .nil

theorem shows_nil : Shows [] fun _ => none := shows_nothing fun _ hd => absurd hd List.not_mem_nil

/-- One text to one address. -/
theorem shows_one {x : Text} {k : ChatNotice} (h : x.Tells k) :
    Shows [⟨a, .text x⟩] (Service.toOne a k) := by
  intro b
  rw [Service.toOne]
  by_cases hb : a = b
  · rw [if_pos hb.symm]
    simpa [textsFor, hb] using h
  · rw [if_neg (Ne.symm hb)]
    simp [textsFor, hb]

/-- A new user is the last row of the table. -/
theorem Proper.enrol (h : Proper s) {users : Table User MAX_USERS} (n : ℕ)
    (hst : store s.allUsers v = .ok users) (ha : findUser s.allUsers v.address = none)
    (hn : ∀ w ∈ s.heap, w.username ≠ v.username) :
    Proper { s with allUsers := users, heapNext := n } ∧
      ({ s with allUsers := users, heapNext := n } : ServerState).service.user =
        Function.update s.service.user v.address (some v.username) := by
  obtain ⟨h0, -, hlive, hcount⟩ := store_eq_ok_iff.mp hst
  have hheap : users.live = s.heap ++ [v] := hlive
  have haddr : ∀ w ∈ s.heap, w.address ≠ v.address := by
    intro w hw heq
    rw [← heq, h.findUser_eq hw] at ha
    cases ha
  refine ⟨⟨h.channels, h.names, ?_, ?_, ?_, fun c chnl hf => ?_⟩, ?_⟩
  · show 0 ≤ users.count
    omega
  · show (users.live.map User.address).Nodup
    rw [hheap, List.map_append]
    refine List.nodup_append'.mpr ⟨h.addresses, List.nodup_singleton _, ?_⟩
    rw [List.map_singleton, List.disjoint_singleton]
    intro hm
    obtain ⟨w, hw, heq⟩ := List.mem_map.mp hm
    exact haddr w hw heq
  · show (users.live.map User.username).Nodup
    rw [hheap, List.map_append]
    refine List.nodup_append'.mpr ⟨h.usernames, List.nodup_singleton _, ?_⟩
    rw [List.map_singleton, List.disjoint_singleton]
    intro hm
    obtain ⟨w, hw, heq⟩ := List.mem_map.mp hm
    exact hn w hw heq
  · obtain ⟨hs, hnd⟩ := h.rosters c chnl hf
    refine ⟨hs.mono fun w hw => ?_, hnd⟩
    show w ∈ users.live
    rw [hheap]
    exact List.mem_append_left _ hw
  · funext b
    show (users.live.find? fun w => addrCmp w.address b).map User.username = _
    rw [hheap, List.find?_append]
    by_cases hb : b = v.address
    · have hnone : (s.heap.find? fun w => addrCmp w.address b) = none := by
        rw [hb]
        exact ha
      rw [hnone, Option.none_or, hb, Function.update_self]
      simp
    · have hsing : ([v].find? fun w => addrCmp w.address b) = none := by
        rw [List.find?_singleton, if_neg]
        rw [addrCmp_iff]
        exact Ne.symm hb
      rw [hsing, Option.or_none, Function.update_of_ne hb]
      rfl

/-- **`REQ_LOGIN`** under a new name. -/
theorem Proper.login (h : Proper s)
    (hc : s.service.Courteous (.login a u : ChatCommand))
    (hroom : HasRoom s (.login u)) :
    ∃ s', Served s (.datagram a (.client (.login u)) drawn now) s' := by
  obtain ⟨hnone, hfresh⟩ := hc
  have ha : findUser s.allUsers a = none := Option.map_eq_none_iff.mp hnone
  have hn : ∀ w ∈ s.heap, w.username ≠ u := by
    intro w hw heq
    refine hfresh w.address ?_
    show (findUser s.allUsers w.address).map User.username = some u
    rw [h.findUser_eq hw, ← heq]
    rfl
  obtain ⟨users, hst⟩ := exists_store (⟨s.heapNext, u, a⟩ : User) h.allUsers hroom
  have hlen : (s.heap.length : ℤ) = s.allUsers.count := (Table.count_eq_length h.allUsers).symm
  have hout : (react s (.datagram a (.client (.login u)) drawn now)).out = [] := reqLogin_out s a u
  -- the channels come out of it as they were
  have key : ∀ chnls : Table Channel MAX_USERS, chnls.count = s.channels.count →
      chnls.live.map Channel.membership = s.channels.live.map Channel.membership →
      (reqLogin s a u).result =
        .ok { s with channels := chnls, allUsers := users, heapNext := s.heapNext + 1 } →
      ∃ s', Served s (.datagram a (.client (.login u)) drawn now) s' := by
    intro chnls hcount hm hr
    obtain ⟨hp, hs⟩ := h.of_same { s with channels := chnls } rfl hcount hm
    obtain ⟨hp', huser⟩ := hp.enrol (s.heapNext + 1) hst ha hn
    have hrooms := congrArg Service.room hs
    refine ⟨_, hr, hp', Service.ext ?_ ?_, ?_⟩
    · rw [huser, hs]
      rfl
    · exact hrooms
    · rw [hout]
      exact shows_nil
  cases hl : s.channels.live with
  | nil =>
    exact key s.channels rfl rfl (reqLogin_eq_ok_iff.mpr ⟨users, hst, Or.inl ⟨hl, rfl⟩⟩)
  | cons chnl chnls =>
    have hf : s.byName chnl.chnlName = some chnl :=
      (findChannel_eq_some_iff h.names).mpr ⟨by rw [hl]; exact List.mem_cons_self, rfl⟩
    obtain ⟨⟨h0, hread⟩, -⟩ := h.rosters _ chnl hf
    have hle := (h.length_entries_le hf).1
    have hnum := numUsers_eq_length h0
    have hlt : chnl.numUsers < MAX_USERS := by
      have hroom : s.allUsers.count < MAX_USERS := hroom
      omega
    obtain ⟨mid, hmid⟩ := exists_addUser (some (⟨s.heapNext, u, a⟩ : User)) h0 hlt
    obtain ⟨-, -, hes, hnumMid, hname, htm⟩ := addUser_eq_ok_iff.mp hmid
    have hno : ∀ e ∈ chnl.entries, isNamed u e = false := by
      intro e he
      obtain ⟨w, hw, rfl⟩ := hread e he
      rw [← Bool.not_eq_true, isNamed_some]
      exact hn w hw
    have hleg : Legible (⟨s.heapNext, u, a⟩ :: s.heap) (fun w => w.username == u) mid.entries := by
      refine legible_of_readable fun e he => ?_
      rw [hes] at he
      rcases List.mem_append.mp he with he | he
      · obtain ⟨w, hw, rfl⟩ := hread e he
        exact ⟨w, List.mem_cons_of_mem _ hw, rfl⟩
      · rw [List.mem_singleton.mp he]
        exact ⟨_, List.mem_cons_self, rfl⟩
    have hlive : (s.channels.overwrite (mid.expel u :: chnls)).live = mid.expel u :: chnls :=
      Table.live_overwrite (by rw [hl]; rfl)
    have htab : (mid.expel u).connectedUsers = chnl.connectedUsers := by
      refine Table.ext ?_ ?_
      · show (mid.expel u).entries = chnl.entries
        rw [entries_expel, hes]
        exact without_concat (v := ⟨s.heapNext, u, a⟩) hno rfl
      · show (mid.expel u).numUsers = chnl.numUsers
        rw [numUsers_expel, hnumMid]
        omega
    refine key (s.channels.overwrite (mid.expel u :: chnls)) (Table.count_overwrite _ _) ?_
      (reqLogin_eq_ok_iff.mpr ⟨users, hst, Or.inr ⟨chnl, chnls, mid, hl, hmid, hleg, rfl⟩⟩)
    rw [hlive, hl, List.map_cons, List.map_cons]
    refine congrArg (· :: _) (Prod.ext ?_ htab)
    show mid.chnlName = chnl.chnlName
    exact hname

/-- Another channel under a name. -/
theorem Proper.replaced (h : Proper s) {r : Option Channel} (hrep : Replaced s c r s')
    (hcount : 0 ≤ s'.channels.count)
    (hr : ∀ chnl, r = some chnl → chnl.Sound s.heap ∧ chnl.entries.Nodup) :
    Proper s' ∧ s'.service =
      { s.service with room := Function.update s.service.room c (r.map Channel.members) } := by
  have hheap : s'.heap = s.heap := by rw [ServerState.heap, hrep.allUsers, ServerState.heap]
  refine ⟨⟨hcount, hrep.nodup, ?_, ?_, ?_, fun d chnl hf => ?_⟩, Service.ext ?_ ?_⟩
  · rw [hrep.allUsers]
    exact h.allUsers
  · rw [hheap]
    exact h.addresses
  · rw [hheap]
    exact h.usernames
  · rw [hheap]
    rw [hrep.byName, Function.update_apply] at hf
    split at hf
    · exact hr chnl hf
    · exact h.rosters d chnl hf
  · funext b
    show (findUser s'.allUsers b).map _ = _
    rw [hrep.allUsers]
    rfl
  · funext d
    show (s'.byName d).map Channel.members =
      Function.update s.service.room c (r.map Channel.members) d
    rw [hrep.byName, Function.update_apply, Function.update_apply]
    split
    · rfl
    · rfl

/-- **`REQ_JOIN`** of a user who is not in the channel. -/
theorem Proper.join (h : Proper s)
    (hc : s.service.Courteous (.join a c : ChatCommand))
    (hroom : HasRoom s (.join c)) :
    ∃ s', Served s (.datagram a (.client (.join c)) drawn now) s' := by
  obtain ⟨hin, hout⟩ := hc
  obtain ⟨usr, hu⟩ : ∃ usr, findUser s.allUsers a = some usr := by
    rw [← Option.isSome_iff_exists, ← Option.isSome_map (f := User.username)]
    exact hin
  obtain ⟨huh, hua⟩ := mem_heap_of_findUser hu
  have hnew : ∀ chnl, s.byName c = some chnl → some usr ∉ chnl.entries := by
    intro chnl hf he
    refine hout (mem_present.mpr ⟨some usr, ?_, isAt_some.mpr hua⟩)
    rw [ServerState.usersOf, show findChannel s.channels c = some chnl from hf]
    exact he
  have hfits : ChannelRequest.join.Fits s c := by
    refine ⟨fun chnl hf => (h.rosters c chnl hf).1, fun _ chnl hf => ?_, fun _ hf => ?_⟩
    · have hlt := (h.length_entries_le hf).2 usr huh (hnew chnl hf)
      have hnum := numUsers_eq_length (h.rosters c chnl hf).1.1
      have hlen : (s.heap.length : ℤ) = s.allUsers.count :=
        (Table.count_eq_length h.allUsers).symm
      have hle := s.allUsers.count_le
      omega
    · exact ⟨h.channels, hroom.resolve_left (findChannel_eq_none_iff.mp hf)⟩
  obtain ⟨r, s', hafter, hok, hrep, hcount⟩ := join_spec now h.names hu hfits
  have hpos : 0 ≤ s'.channels.count := by
    have h0 := h.channels
    have := creates_nonneg ChannelRequest.join (s.byName c)
    omega
  -- the channel that was there, or else a new one
  obtain ⟨old, hold, hs, hnd, hno, hmem⟩ : ∃ old : Channel,
      (s.byName c).getD (createChannel c now) = old ∧ old.Sound s.heap ∧ old.entries.Nodup ∧
        some usr ∉ old.entries ∧ old.members = s.service.present c := by
    cases hf : s.byName c with
    | none =>
      refine ⟨createChannel c now, rfl, sound_createChannel, List.nodup_nil, List.not_mem_nil, ?_⟩
      show _ = ((s.byName c).map Channel.members).getD ∅
      rw [hf]
      rfl
    | some chnl =>
      obtain ⟨hs, hnd⟩ := h.rosters c chnl hf
      refine ⟨chnl, rfl, hs, hnd, hnew chnl hf, ?_⟩
      show _ = ((s.byName c).map Channel.members).getD ∅
      rw [hf]
      rfl
  rw [ChannelRequest.after, hold] at hafter
  cases hadd : addUser old (some usr) with
  | error f =>
    rw [hadd] at hafter
    cases hafter
  | ok chnl =>
    rw [hadd] at hafter
    cases hafter
    obtain ⟨-, -, hes, hnum, -⟩ := addUser_eq_ok_iff.mp hadd
    obtain ⟨hp, hserv⟩ := h.replaced hrep hpos fun x hx => by
      cases hx
      refine ⟨⟨?_, fun e he => ?_⟩, ?_⟩
      · have := hs.1
        omega
      · rw [hes] at he
        rcases List.mem_append.mp he with he | he
        · exact hs.2 e he
        · exact ⟨usr, huh, List.mem_singleton.mp he⟩
      · rw [hes]
        exact List.nodup_append'.mpr ⟨hnd, List.nodup_singleton _, by simpa using hno⟩
    refine ⟨s', hok, hp, ?_, ?_⟩
    · have hins : chnl.members = insert a (s.service.present c) := by
        ext b
        rw [Finset.mem_insert, ← hmem, mem_members, mem_members, hes]
        constructor
        · rintro ⟨e, he, heb⟩
          rcases List.mem_append.mp he with he | he
          · exact Or.inr ⟨e, he, heb⟩
          · rw [List.mem_singleton.mp he, isAt_some] at heb
            exact Or.inl (heb.symm.trans hua)
        · rintro (rfl | ⟨e, he, heb⟩)
          · exact ⟨some usr, List.mem_append_right _ (List.mem_singleton_self _),
              isAt_some.mpr hua⟩
          · exact ⟨e, List.mem_append_left _ he, heb⟩
      rw [hserv, Option.map_some, hins]
      rfl
    · refine shows_nothing fun d hd => ?_
      have hd : d ∈ (reqJoin s a c now).out := hd
      rw [reqJoin_out] at hd
      obtain ⟨x, -, rfl⟩ := List.mem_map.mp hd
      exact ⟨_, rfl⟩

/-- The channel that is left has its other users, and it is closed if it has none. -/
theorem Proper.after_leave (h : Proper s) {chnl : Channel} (hf : s.byName c = some chnl)
    (hv : some usr ∈ chnl.entries) :
    (∀ x, (if chnl.numUsers = 1 then none else some (chnl.expel usr.username)) = some x →
        x.Sound s.heap ∧ x.entries.Nodup) ∧
      (if chnl.numUsers = 1 then none else some (chnl.expel usr.username)).map Channel.members =
        if chnl.members.erase usr.address = ∅ then none
        else some (chnl.members.erase usr.address) := by
  obtain ⟨⟨h0, hread⟩, hnd⟩ := h.rosters c chnl hf
  obtain ⟨l₁, l₂, hl, hw, -⟩ := h.expel hf hv
  have hsub : ∀ e ∈ l₁ ++ l₂, e ∈ chnl.entries := by
    intro e he
    rw [hl]
    exact ((List.sublist_append_right [some usr] l₂).append_left l₁).subset he
  have hnum : chnl.numUsers = (l₁ ++ l₂).length + 1 := by
    rw [numUsers_eq_length h0, hl, List.length_append, List.length_cons, List.length_append]
    push_cast
    omega
  have hone : chnl.numUsers = 1 ↔ chnl.members.erase usr.address = ∅ := by
    rw [← h.members_expel hf hv]
    have hnil : chnl.numUsers = 1 ↔ l₁ ++ l₂ = [] := by
      rw [← List.length_eq_zero_iff]
      omega
    rw [hnil]
    constructor
    · intro hnil
      rw [Channel.members, hw, hnil]
      rfl
    · intro hempty
      refine List.eq_nil_iff_forall_not_mem.mpr fun e he => ?_
      obtain ⟨w, -, rfl⟩ := hread e (hsub e he)
      have hmem : w.address ∈ (chnl.expel usr.username).members :=
        mem_members.mpr ⟨some w, by rw [hw]; exact he, isAt_some.mpr rfl⟩
      rw [hempty] at hmem
      exact absurd hmem (Finset.notMem_empty _)
  refine ⟨fun x hx => ?_, ?_⟩
  · split at hx
    · cases hx
    · cases hx
      refine ⟨⟨?_, fun e he => ?_⟩, ?_⟩
      · rw [numUsers_expel]
        omega
      · rw [hw] at he
        exact hread e (hsub e he)
      · rw [hw]
        rw [hl] at hnd
        exact (List.nodup_cons.mp (List.nodup_middle.mp hnd)).2
  · by_cases h1 : chnl.numUsers = 1
    · rw [if_pos h1, if_pos (hone.mp h1)]
      rfl
    · rw [if_neg h1, if_neg (mt hone.mpr h1), Option.map_some, h.members_expel hf hv]

/-- **`REQ_LEAVE`** of a user who is in the channel, or of a channel that does not exist. -/
theorem Proper.leave (h : Proper s)
    (hc : s.service.Courteous (.leave a c : ChatCommand)) :
    ∃ s', Served s (.datagram a (.client (.leave c)) drawn now) s' := by
  obtain ⟨hin, hmem⟩ := hc
  obtain ⟨usr, hu⟩ : ∃ usr, findUser s.allUsers a = some usr := by
    rw [← Option.isSome_iff_exists, ← Option.isSome_map (f := User.username)]
    exact hin
  have hua := (mem_heap_of_findUser hu).2
  obtain ⟨r, s', hafter, hok, hrep, hcount⟩ := leave_spec now h.names hu
    ⟨fun chnl hf => (h.rosters c chnl hf).1, (nomatch ·), (nomatch ·)⟩
  have hpos : 0 ≤ s'.channels.count := by
    have h0 := h.channels
    have := (deletes_bounds ChannelRequest.leave s c).2 h0
    omega
  have hout := reqLeave_out_of_ok hok
  have hroom : s.service.room c = (s.byName c).map Channel.members := rfl
  cases hf : s.byName c with
  | none =>
    rw [hf] at hafter hout hroom
    cases hafter
    obtain ⟨hp, hserv⟩ := h.replaced hrep hpos fun _ hx => by cases hx
    refine ⟨s', hok, hp, ?_, ?_⟩
    · rw [hserv, Option.map_none, ← Option.map_none (f := Channel.members), ← hroom,
        Function.update_eq_self]
      show s.service = s.service.dismiss a c
      rw [Service.dismiss, hroom]
      rfl
    · have hnote : s.service.notices
          (.leave a c : ChatCommand) = Service.toOne a (.unknown c) := by
        rw [Service.notices, hroom]
        rfl
      show Shows (reqLeave s a c).out _
      rw [hout]
      exact hnote ▸ shows_one (Or.inl rfl)
  | some chnl =>
    rw [hf] at hafter hout hroom
    rw [Option.map_some] at hroom
    cases hafter
    obtain ⟨hsound, hset⟩ := h.after_leave hf (h.mem_entries hf hu (hmem _ hroom))
    obtain ⟨hp, hserv⟩ := h.replaced hrep hpos hsound
    refine ⟨s', hok, hp, ?_, ?_⟩
    · rw [hserv, hset, hua]
      show _ = s.service.dismiss a c
      rw [Service.dismiss, hroom]
    · have hnote : s.service.notices
          (.leave a c : ChatCommand) = fun _ => none := by
        rw [Service.notices, hroom]
      show Shows (reqLeave s a c).out _
      rw [hout]
      refine hnote ▸ shows_nothing fun d hd => ?_
      rw [ChannelRequest.sent] at hd
      split at hd
      · obtain ⟨x, -, rfl⟩ := List.mem_map.mp hd
        exact ⟨_, rfl⟩
      · exact absurd hd List.not_mem_nil

theorem byName_loggedOut :
    (s.loggedOut a u).byName c = (s.byName c).map (Channel.expel u) := by
  rw [ServerState.byName, findChannel, channels_loggedOut, List.find?_map]
  rfl

/-- **`REQ_LOGOUT`** of a user who is in every channel. -/
theorem Proper.logout (h : Proper s)
    (hc : s.service.Courteous (.logout a : ChatCommand)) :
    ∃ s', Served s (.datagram a (.client .logout) drawn now) s' := by
  obtain ⟨hin, hall⟩ := hc
  obtain ⟨usr, hu⟩ : ∃ usr, findUser s.allUsers a = some usr := by
    rw [← Option.isSome_iff_exists, ← Option.isSome_map (f := User.username)]
    exact hin
  obtain ⟨huh, hua⟩ := mem_heap_of_findUser hu
  have hentry : ∀ c chnl, s.byName c = some chnl → some usr ∈ chnl.entries := fun c chnl hf =>
    h.mem_entries hf hu (hall c _ (congrArg (Option.map Channel.members) hf))
  have hok : (reqLogout s a).result = .ok (s.loggedOut a usr.username) := by
    refine reqLogout_eq_ok_iff.mpr ⟨usr, hu, fun chnl hch => ?_, rfl⟩
    have hf : s.byName chnl.chnlName = some chnl :=
      (findChannel_eq_some_iff h.names).mpr ⟨hch, rfl⟩
    exact legible_of_readable (h.rosters _ chnl hf).1.2
  have hheap : (s.loggedOut a usr.username).heap =
      s.heap.eraseP fun v => addrCmp v.address a := allUsers_loggedOut hu
  obtain ⟨l₁, l₂, hl, he⟩ := exists_eraseP_heap hu
  have hsub : (l₁ ++ l₂).Sublist s.heap := by
    rw [hl]
    exact (List.sublist_append_right [usr] l₂).append_left l₁
  -- the address is that of no other user
  have hgone : ∀ w ∈ l₁ ++ l₂, w.address ≠ a := by
    intro w hw hwa
    have hnd := h.addresses
    rw [hl, List.map_append, List.map_cons] at hnd
    have hno := (List.nodup_cons.mp (List.nodup_middle.mp hnd)).1
    rw [← List.map_append] at hno
    exact hno (List.mem_map.mpr ⟨w, hw, hwa.trans hua.symm⟩)
  refine ⟨_, hok, ⟨?_, ?_, ?_, ?_, ?_, fun c chnl hf => ?_⟩, Service.ext ?_ ?_, ?_⟩
  · show 0 ≤ (s.channels.overwrite _).count
    rw [Table.count_overwrite]
    exact h.channels
  · show (chnlNames (s.loggedOut a usr.username).channels).Nodup
    rw [chnlNames, channels_loggedOut, List.map_map]
    exact h.names
  · have hpos := Table.count_pos_of_mem (List.mem_of_find?_eq_some hu)
    show 0 ≤ s.allUsers.count - 1
    omega
  · rw [hheap, he]
    exact (hsub.map User.address).nodup h.addresses
  · rw [hheap, he]
    exact (hsub.map User.username).nodup h.usernames
  · rw [byName_loggedOut] at hf
    obtain ⟨old, hold, rfl⟩ := Option.map_eq_some_iff.mp hf
    obtain ⟨⟨h0, hread⟩, hnd⟩ := h.rosters c old hold
    obtain ⟨k₁, k₂, hk, hw, hno⟩ := h.expel hold (hentry c old hold)
    have hnum := numUsers_eq_length h0
    rw [hk] at hread hnd hnum
    rw [List.length_append, List.length_cons] at hnum
    refine ⟨⟨?_, fun e hem => ?_⟩, ?_⟩
    · rw [numUsers_expel]
      omega
    · rw [hw] at hem
      obtain ⟨w, hwh, rfl⟩ := hread e
        (((List.sublist_append_right [some usr] k₂).append_left k₁).subset hem)
      refine ⟨w, ?_, rfl⟩
      rw [hheap, he]
      rw [hl] at hwh
      have hne : w ≠ usr := by
        rintro rfl
        exact hno hem
      simpa [hne] using hwh
    · rw [hw]
      exact (List.nodup_cons.mp (List.nodup_middle.mp hnd)).2
  · funext b
    show ((s.loggedOut a usr.username).heap.find? fun v => addrCmp v.address b).map _ =
      Function.update s.service.user a none b
    rw [hheap]
    by_cases hb : b = a
    · rw [hb, Function.update_self, he, List.find?_eq_none.mpr fun w hw => ?_]
      · rfl
      · rw [addrCmp_iff]
        exact hgone w hw
    · rw [Function.update_of_ne hb, find?_eraseP_of_disjoint fun w _ hwa => ?_]
      · rfl
      · rw [← Bool.not_eq_true, addrCmp_iff, addrCmp_iff.mp hwa]
        exact Ne.symm hb
  · funext c
    show ((s.loggedOut a usr.username).byName c).map _ = ((s.byName c).map _).map _
    rw [byName_loggedOut]
    cases hf : s.byName c with
    | none => rfl
    | some chnl =>
      rw [Option.map_some, Option.map_some, Option.map_some, Option.map_some,
        h.members_expel hf (hentry c chnl hf), hua]
  · have hout : (react s (.datagram a (.client .logout) drawn now)).out = [] := reqLogout_out s a
    rw [hout]
    exact shows_nil

end Requests

end DuckChat
