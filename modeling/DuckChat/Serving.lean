import DuckChat.Rooms

/-!
# The chat service that a server provides

Every run of a server in which the requests are courteous is a course of the chat service: the
tables stand for the state of the service, and everybody gets the texts that the service tells them
and no other. What other servers send is part of this: their joins open rooms, their says are
relayed or suppressed, and everything else about neighbours, timeouts and renewals does not show.

A courteous request goes wrong in one way only: it does not fit. That is exact.

## Main definitions

* `ServerState.answers` — a server as a system that answers
* `Polite` — an input that is courteous towards the service
* `serviceRefinement` — the server refines the service

## Main results

* `Proper.served_iff` — a courteous request is served exactly if the tables have room for it
* `server_provides_service`
* `say_reaches_attendants` — who gets a say, in terms of the requests made so far
-/

set_option autoImplicit false

namespace DuckChat

section Requests

variable {s s' : ServerState} {a b : Sockaddr} {c : Name} {t : SayText} {drawn : Id} {now : ℤ}

/-! ### Texts to a room -/

theorem textsFor_append (b : Sockaddr) (xs ys : List Datagram) :
    textsFor b (xs ++ ys) = textsFor b xs ++ textsFor b ys :=
  List.filterMap_append

/-- A text for each entry at the address. -/
theorem textsFor_textsTo (b : Sockaddr) (es : List (Option User)) (x : Text) :
    textsFor b (textsTo es x) = List.replicate (es.countP (isAt b)) x := by
  induction es with
  | nil => rfl
  | cons e es ih =>
    rw [List.countP_cons]
    cases e with
    | none => exact ih
    | some w =>
      show textsFor b (⟨w.address, .text x⟩ :: textsTo es x) = _
      rw [textsFor, List.filterMap_cons]
      by_cases hb : w.address = b
      · rw [if_pos (isAt_some.mpr hb), List.replicate_succ]
        simp only [if_pos hb]
        exact congrArg (x :: ·) ih
      · rw [if_neg (mt isAt_some.mp hb)]
        simp only [if_neg hb]
        exact ih

/-- An address has one entry in a room, or none. -/
theorem Proper.countP_isAt (h : Proper s) {chnl : Channel} (hf : s.byName c = some chnl) :
    chnl.entries.countP (isAt b) = if b ∈ chnl.members then 1 else 0 := by
  by_cases hb : b ∈ chnl.members
  · obtain ⟨usr, hu, hmem⟩ := h.exists_findUser hf hb
    have hsame : chnl.entries.countP (isAt b) = chnl.entries.count (some usr) := by
      refine List.countP_congr fun e he => ?_
      rw [beq_iff_eq]
      constructor
      · exact h.entry_eq hf hu he
      · rintro rfl
        exact isAt_some.mpr (mem_heap_of_findUser hu).2
    rw [if_pos hb, hsame, List.count_eq_one_of_mem (h.rosters c chnl hf).2 hmem]
  · rw [if_neg hb, List.countP_eq_zero]
    exact fun e he hea => hb (mem_members.mpr ⟨e, he, hea⟩)

/-- **A text for each entry** is a notice to the room. -/
theorem Proper.shows_toRoom (h : Proper s) {chnl : Channel} (hf : s.byName c = some chnl) {x : Text}
    {k : ChatNotice} (hx : x.Tells k) {out : List Datagram}
    (hout : ∀ d ∈ out, ∃ m, d.payload = .s2s m) :
    Shows (textsTo chnl.entries x ++ out) (s.service.toRoom c k) := by
  have hroom : s.service.present c = chnl.members := by
    show ((s.byName c).map Channel.members).getD ∅ = _
    rw [hf]
    rfl
  have hnil : ∀ b, textsFor b out = [] := by
    intro b
    have := shows_nothing hout b
    simpa using this
  intro b
  rw [textsFor_append, hnil, List.append_nil, textsFor_textsTo, h.countP_isAt hf, Service.toRoom,
    hroom]
  split
  · exact .cons hx .nil
  · exact .nil

/-- **`REQ_SAY`** of a user who is in the channel. -/
theorem Proper.say (h : Proper s)
    (hc : s.service.Courteous (.say a c t : ChatCommand))
    (hroom : HasRoom s (.say c t)) :
    ∃ s', Served s (.datagram a (.client (.say c t)) drawn now) s' := by
  obtain ⟨ids, hids⟩ : ∃ ids, s.recentIds.record drawn = .ok ids := by
    rw [RecentIds.record, if_neg hroom]
    split
    · exact ⟨_, rfl⟩
    · exact ⟨_, rfl⟩
  obtain ⟨chnl, hf⟩ : ∃ chnl, s.byName c = some chnl := by
    cases hf : s.byName c with
    | some chnl => exact ⟨chnl, rfl⟩
    | none =>
      obtain ⟨e, he, -⟩ := mem_present.mp hc
      rw [ServerState.usersOf, show findChannel s.channels c = none from hf] at he
      exact absurd he List.not_mem_nil
  have ha : a ∈ chnl.members := by
    have hp : s.service.present c = chnl.members := by
      show ((s.byName c).map Channel.members).getD ∅ = _
      rw [hf]
      rfl
    rw [← hp]
    exact hc
  obtain ⟨usr, hu, hmem⟩ := h.exists_findUser hf ha
  have hread := (h.rosters c chnl hf).1.2
  obtain ⟨_, _, -, hsay⟩ := reqSay_eq (t := t) hf hread hmem (mem_heap_of_findUser hu).2 hids
  have hok : (reqSay s a c t drawn).result = .ok (s.recorded ids) := by rw [hsay]
  -- the speaker is found among the entries under its own name
  have hout : (reqSay s a c t drawn).out = textsTo chnl.entries (.say c usr.username t) ++
      sayPackets s (s2sFillSay c usr.username t drawn) := by
    obtain ⟨chnl', usr', hf', hu', hne, -⟩ := reqSay_ok hok
    obtain rfl : chnl = chnl' := Option.some.inj (hf.symm.trans hf')
    obtain rfl : usr = usr' := Option.some.inj (hu.symm.trans hu')
    obtain ⟨w, hw, -, ho⟩ := hne (List.ne_nil_of_mem hmem)
    have hwu := h.entry_eq hf hu (List.mem_of_find?_eq_some hw) (List.find?_some hw)
    obtain rfl : w = usr := Option.some.inj hwu
    exact ho
  obtain ⟨hp, hserv⟩ := h.of_channels (s.recorded ids) rfl rfl
  refine ⟨_, hok, hp, hserv, ?_⟩
  have hnote : s.service.notices (.say a c t : ChatCommand) =
      s.service.toRoom c (.said c usr.username t) := by
    have huser : s.service.user a = some usr.username := congrArg (Option.map User.username) hu
    rw [Service.notices, huser]
  show Shows (reqSay s a c t drawn).out (s.service.notices (.say a c t))
  rw [hout, hnote]
  have htells : (Text.say c usr.username t).Tells (.said c usr.username t) := ⟨rfl, rfl, rfl⟩
  refine h.shows_toRoom hf htells fun d hd => ?_
  obtain ⟨srvr, -, rfl⟩ := List.mem_map.mp hd
  exact ⟨_, rfl⟩

/-- **`REQ_LIST`**. -/
theorem Proper.list (h : Proper s) :
    Served s (.datagram a (.client .list) drawn now) s := by
  refine ⟨rfl, h, rfl, ?_⟩
  refine shows_one ⟨h.names, fun c => ?_⟩
  rw [Set.mem_ofPred_eq]
  show _ ↔ ((s.byName c).map Channel.members).isSome = true
  rw [Option.isSome_map]
  exact isSome_findChannel_iff.symm

/-- **`REQ_WHO`** of a user who is logged in. -/
theorem Proper.who (h : Proper s)
    (hc : s.service.Courteous (.who a c : ChatCommand))
    (hroom : HasRoom s (.who c)) :
    Served s (.datagram a (.client (.who c)) drawn now) s := by
  have hin : (findUser s.allUsers a).isSome := by
    rw [← Option.isSome_map (f := User.username)]
    exact hc
  have hserv : s.service.room c = (s.byName c).map Channel.members := rfl
  cases hf : s.byName c with
  | none =>
    have hwho : reqWho s a c = ⟨[⟨a, .text (whoError c)⟩], .ok s⟩ := by
      rw [reqWho, if_neg (fits_whoLen hin), show findChannel s.channels c = none from hf]
      rfl
    have hnote : s.service.notices (.who a c : ChatCommand) =
        Service.toOne a (.unknown c) := by
      rw [Service.notices, hserv, hf]
      rfl
    refine ⟨by rw [react, handle, hwho], h, rfl, ?_⟩
    show Shows (reqWho s a c).out (s.service.notices (.who a c))
    rw [hwho, hnote]
    exact shows_one (Or.inr rfl)
  | some chnl =>
    obtain ⟨⟨h0, hread⟩, hnd⟩ := h.rosters c chnl hf
    obtain ⟨users, hus⟩ := exists_users hread
    have hnames : chnl.entries.map (Option.map User.username) =
        (users.map User.username).map some := by
      rw [hus, List.map_map, List.map_map]
      rfl
    obtain ⟨hlen, hfits⟩ := (whoFits_iff h.allUsers hnames).mp (hroom chnl hf)
    have hwho : reqWho s a c = ⟨[⟨a, .text (.who c chnl.numUsers (users.map User.username)
        (36 + USERNAME_MAX * s.allUsers.count.toNat))⟩], .ok s⟩ := by
      rw [reqWho_found hf, if_neg hlen, whoLoop_eq_ok_iff.mpr ⟨hread, hnames, hfits⟩]
    have hnote : s.service.notices (.who a c : ChatCommand) =
        Service.toOne a (.members c (s.service.namesIn chnl.members)) := by
      rw [Service.notices, hserv, hf]
      rfl
    have hheap : ∀ w ∈ users, w ∈ s.heap := by
      intro w hw
      obtain ⟨x, hx, hxw⟩ := hread (some w) (by rw [hus]; exact List.mem_map_of_mem hw)
      rwa [Option.some.inj hxw]
    refine ⟨by rw [react, handle, hwho], h, rfl, ?_⟩
    show Shows (reqWho s a c).out (s.service.notices (.who a c))
    rw [hwho, hnote]
    refine shows_one ⟨rfl, ?_, ?_, fun u => ?_⟩
    · rw [numUsers_eq_length h0, hus, List.length_map, List.length_map]
    · rw [hus] at hnd
      exact List.Nodup.map_on (fun x hx y hy hxy =>
        List.inj_on_of_nodup_map h.usernames (hheap x hx) (hheap y hy) hxy) hnd.of_map
    · rw [List.mem_map, Service.namesIn, Set.mem_ofPred_eq]
      constructor
      · rintro ⟨w, hw, rfl⟩
        refine ⟨w.address, mem_members.mpr ⟨some w, ?_, isAt_some.mpr rfl⟩, ?_⟩
        · rw [hus]
          exact List.mem_map_of_mem hw
        · exact congrArg (Option.map User.username) (h.findUser_eq (hheap w hw))
      · rintro ⟨b, hb, hbu⟩
        obtain ⟨w, hw, hmem⟩ := h.exists_findUser hf hb
        have hwu : (findUser s.allUsers b).map User.username = some u := hbu
        rw [hw] at hwu
        rw [hus] at hmem
        obtain ⟨x, hx, hxw⟩ := List.mem_map.mp hmem
        obtain rfl : x = w := Option.some.inj hxw
        exact ⟨x, hx, Option.some.inj hwu⟩

/-! ### When a request fits -/

/-- A request that ended well had room. -/
theorem Proper.hasRoom (h : Proper s) {rq : ClientRequest}
    (hst : (react s (.datagram a (.client rq) drawn now)).result = .ok s') : HasRoom s rq := by
  cases rq with
  | login u =>
    obtain ⟨users, hu, -⟩ := reqLogin_eq_ok_iff.mp hst
    exact (store_eq_ok_iff.mp hu).2.1
  | join c =>
    obtain ⟨-, -, -, -, chnls, chnl, chnl', ⟨hf, -⟩ | ⟨-, -, hadd⟩, -⟩ := reqJoin_ok hst
    · exact Or.inl (mem_chnlNames_of_find hf)
    · exact Or.inr (addChnl_eq_ok_iff.mp hadd).2.1
  | say c t =>
    rcases reqSay_cases s a c t drawn with ⟨f, hf, -⟩ | ⟨_, _, ids, -, -, hids, -⟩
    · cases hf.symm.trans hst
    · intro hmax
      rw [RecentIds.record, if_pos hmax] at hids
      cases hids
  | who c =>
    intro chnl hf
    have hst : (reqWho s a c).result = .ok s' := hst
    rw [reqWho_found hf] at hst
    split at hst
    · cases hst
    · next hlen =>
      cases hloop : whoLoop s.heap (36 + USERNAME_MAX * s.allUsers.count.toNat) 0 chnl.entries with
      | error f =>
        rw [hloop] at hst
        cases hst
      | ok us =>
        obtain ⟨-, hnames, hin⟩ := whoLoop_eq_ok_iff.mp hloop
        exact (whoFits_iff h.allUsers hnames).mpr ⟨hlen, hin⟩
  | logout => trivial
  | leave c => trivial
  | list => trivial
  | other k => trivial

/-- A courteous request of a client that fits is served. -/
theorem Proper.served (h : Proper s) {rq : ClientRequest}
    (hc : s.service.Courteous (Input.datagram a (.client rq) drawn now).command)
    (hroom : HasRoom s rq) : ∃ s', Served s (.datagram a (.client rq) drawn now) s' := by
  cases rq with
  | login u => exact h.login hc hroom
  | logout => exact h.logout hc
  | join c => exact h.join hc hroom
  | leave c => exact h.leave hc
  | say c t => exact h.say hc hroom
  | list => exact ⟨s, h.list⟩
  | who c => exact ⟨s, h.who hc hroom⟩
  | other k => exact ⟨s, rfl, h, rfl, shows_nil⟩

/-- **A courteous request is served exactly if it fits.** -/
theorem Proper.served_iff (h : Proper s) {rq : ClientRequest}
    (hc : s.service.Courteous (Input.datagram a (.client rq) drawn now).command) :
    (∃ s', (react s (.datagram a (.client rq) drawn now)).result = .ok s') ↔ HasRoom s rq := by
  constructor
  · rintro ⟨s', hst⟩
    exact h.hasRoom hst
  · intro hroom
    obtain ⟨s', hs⟩ := h.served hc hroom
    exact ⟨s', hs.result⟩

/-! ### What comes from other servers, and from the clock -/

/-- A channel that another server joined is a room with nobody in it. -/
theorem Proper.servJoin (h : Proper s) (hst : (reqServJoin s a c now).result = .ok s') :
    Served s (.datagram a (.s2s (.join c)) drawn now) s' := by
  have hsent : ∀ d ∈ (reqServJoin s a c now).out, ∃ m, d.payload = .s2s m := by
    intro d hd
    rcases reqServJoin_cases s a c now with
      ⟨-, -, hnil⟩ | ⟨_, _, _, -, -, -, ⟨-, -, hnil⟩ | ⟨-, _, -, -, hout⟩⟩
    · rw [hnil] at hd
      exact absurd hd List.not_mem_nil
    · rw [hnil] at hd
      exact absurd hd List.not_mem_nil
    · rw [hout] at hd
      obtain ⟨x, -, rfl⟩ := List.mem_map.mp hd
      exact ⟨_, rfl⟩
  have hroom : s.service.room c = (s.byName c).map Channel.members := rfl
  obtain ⟨srvr, srvr', chnls, -, -, ⟨hc, rfl⟩ | ⟨hc, hadd⟩, rfl⟩ := reqServJoin_ok hst
  · obtain ⟨chnl, hf⟩ := Option.isSome_iff_exists.mp (isSome_findChannel_iff.mpr hc)
    have hf : s.byName c = some chnl := hf
    obtain ⟨hp, hserv⟩ := h.of_channels
      { s with cnnctSrvrs := storeServer s.cnnctSrvrs a srvr' } rfl rfl
    refine ⟨hst, hp, ?_, shows_nothing hsent⟩
    rw [hserv]
    show s.service = s.service.provide c
    rw [Service.provide, hroom, hf]
    rfl
  · have hnone : s.byName c = none := findChannel_eq_none_iff.mpr hc
    have hrep : Replaced s c (some (createChannel c now))
        { s with cnnctSrvrs := s.cnnctSrvrs, channels := chnls } := by
      refine ⟨?_, ?_, rfl, rfl, rfl, rfl⟩
      · funext d
        rw [Function.update_apply]
        split
        · next hd =>
          rw [hd]
          exact findChannel_addChnl_self hadd hc
        · next hd => exact findChannel_addChnl_of_ne hadd hd
      · show (chnlNames chnls).Nodup
        rw [chnlNames_addChnl hadd]
        refine List.nodup_append'.mpr ⟨h.names, List.nodup_singleton _, ?_⟩
        rw [List.disjoint_singleton]
        exact hc
    obtain ⟨h0, -, -, hcount⟩ := addChnl_eq_ok_iff.mp hadd
    obtain ⟨hp, hserv⟩ := h.replaced hrep (show 0 ≤ chnls.count by omega) fun chnl hch => by
      cases hch
      exact ⟨sound_createChannel, List.nodup_nil⟩
    obtain ⟨hp', hserv'⟩ := hp.of_channels
      { s with cnnctSrvrs := storeServer s.cnnctSrvrs a srvr', channels := chnls } rfl rfl
    refine ⟨hst, hp', ?_, shows_nothing hsent⟩
    rw [hserv', hserv]
    show _ = s.service.provide c
    rw [Service.provide, hroom, hnone]
    rfl

/-- What is said elsewhere goes to everybody in the room, or to nobody. -/
theorem Proper.servSay (h : Proper s) {m : SayS2S} (hst : (reqServSay s a m).result = .ok s') :
    Proper s' ∧ s'.service = s.service ∧
      (Shows (reqServSay s a m).out
          (s.service.toRoom m.reqChannel (.said m.reqChannel m.reqUsername m.reqText)) ∨
        Shows (reqServSay s a m).out fun _ => none) := by
  have hleave : Shows [⟨a, .s2s (.leave m.reqChannel)⟩] fun _ => none :=
    shows_nothing fun d hd => ⟨.leave m.reqChannel, by rw [List.mem_singleton.mp hd]⟩
  have hcases := reqServSay_cases s a m
  generalize reqServSay s a m = r at hst hcases ⊢
  cases hcases with
  | fault f hf =>
    rw [hf] at hst
    cases hst
  | duplicate hd =>
    cases hst
    exact ⟨h, rfl, Or.inr hleave⟩
  | @prune ids active hd hids hf hu hs =>
    cases hst
    obtain ⟨hp, hserv⟩ := h.of_channels (s.recorded ids) rfl rfl
    exact ⟨hp, hserv, Or.inr hleave⟩
  | @forward ids active hd hids hf hk hl =>
    cases hst
    obtain ⟨hp, hserv⟩ := h.of_channels (s.recorded ids) rfl rfl
    have hf : s.byName m.reqChannel = some active := hf
    refine ⟨hp, hserv, Or.inl ?_⟩
    rw [deliverLoop_eq (h.rosters _ active hf).1.2]
    have htells : (fillTextSay m.reqChannel m.reqUsername m.reqText).Tells
        (.said m.reqChannel m.reqUsername m.reqText) := ⟨rfl, rfl, rfl⟩
    refine h.shows_toRoom hf htells fun d hd => ?_
    obtain ⟨srvr, -, rfl⟩ := List.mem_map.mp hd
    exact ⟨_, rfl⟩

/-- **One input.** -/
theorem Proper.step {i : Input} (h : Proper s) (hc : s.service.Courteous i.command)
    (hst : (react s i).result = .ok s') :
    Proper s' ∧ ∃ v, Service.Step s.service i.command s'.service v ∧ Shows (react s i).out v := by
  have of_served : Served s i s' → Proper s' ∧
      ∃ v, Service.Step s.service i.command s'.service v ∧ Shows (react s i).out v :=
    fun hs => ⟨hs.proper, _, ⟨hs.service, Or.inl rfl⟩, hs.shows⟩
  rcases i with ⟨a, (rq | (c | c | m)), drawn, now⟩ | now | now
  · obtain ⟨t, hs⟩ := h.served hc (h.hasRoom hst)
    obtain rfl : t = s' := Except.ok.inj (hs.result.symm.trans hst)
    exact of_served hs
  · exact of_served (h.servJoin hst)
  · have hst' : (reqServLeave s a c).result = .ok s' := hst
    obtain ⟨srvr, -, -, rfl⟩ := exists_of_reqServLeave hst'
    obtain ⟨hp, hserv⟩ := h.of_channels { s with
      cnnctSrvrs := storeServer s.cnnctSrvrs a (srvr.setNumChnnls (srvr.numChnnls - 1)) } rfl rfl
    refine of_served ⟨hst, hp, hserv, ?_⟩
    show Shows (reqServLeave s a c).out _
    rw [(reqServLeave_cases s a c).1]
    exact shows_nil
  · obtain ⟨hp, hserv, hshows⟩ := h.servSay hst
    refine ⟨hp, ?_⟩
    rcases hshows with hshows | hshows
    · exact ⟨_, ⟨hserv, Or.inl rfl⟩, hshows⟩
    · exact ⟨_, ⟨hserv, Or.inr ⟨⟨_, _, _, rfl⟩, rfl⟩⟩, hshows⟩
  · obtain ⟨-, -, hch, hu⟩ := timeoutScan_ok hst
    obtain ⟨hp, hserv⟩ := h.of_channels s' hu hch
    refine of_served ⟨hst, hp, hserv, ?_⟩
    show Shows (timeoutScan s now).out _
    rw [timeoutScan_out]
    exact shows_nil
  · obtain ⟨-, -, -, hu, hcount, hm⟩ := renewalPass_ok hst
    obtain ⟨hp, hserv⟩ := h.of_same s' hu hcount hm
    refine of_served ⟨hst, hp, hserv, ?_⟩
    refine shows_nothing fun d hd => ?_
    obtain ⟨c, -, b, -, rfl⟩ := mem_renewalPass_out hd
    exact ⟨_, rfl⟩

end Requests

/-! ### Whole runs -/

/-- A server as a system that answers: it stops at a fault. -/
def ServerState.answers : Steps ServerState Input (List Datagram) :=
  fun s i s' out => (react s i).result = .ok s' ∧ out = (react s i).out

/-- An input that is courteous towards the service that the tables stand for. -/
def Polite (s : ServerState) (i : Input) : Prop := s.service.Courteous i.command

/-- The chat service, as the system that a server is compared with. -/
abbrev chatSteps : Steps ChatService ChatCommand (Sockaddr → Option ChatNotice) := Service.Step

theorem forall_user_ne_iff {s : ServerState} {u : Username} :
    (∀ b, s.service.user b ≠ some u) ↔ ∀ v ∈ s.heap, s.service.user v.address ≠ some u := by
  refine ⟨fun h v _ => h v.address, fun h b hb => ?_⟩
  have hb : (findUser s.allUsers b).map User.username = some u := hb
  obtain ⟨v, hv, -⟩ := Option.map_eq_some_iff.mp hb
  obtain ⟨hmem, rfl⟩ := mem_heap_of_findUser hv
  exact h v hmem hb

theorem forall_room_iff {s : ServerState} {a : Sockaddr} :
    (∀ c r, s.service.room c = some r → a ∈ r) ↔
      ∀ chnl ∈ s.channels.live, ∀ r ∈ s.service.room chnl.chnlName, a ∈ r := by
  refine ⟨fun h chnl _ r hr => h chnl.chnlName r hr, fun h c r hr => ?_⟩
  obtain ⟨chnl, hf, -⟩ := Option.map_eq_some_iff.mp (show (s.byName c).map _ = some r from hr)
  obtain ⟨hmem, rfl⟩ := findChannel_some hf
  exact h chnl hmem r hr

instance decidableCourteous (s : ServerState) :
    ∀ k : ChatCommand, Decidable (s.service.Courteous k)
  | .login a u => decidable_of_iff
      (s.service.user a = none ∧ ∀ v ∈ s.heap, s.service.user v.address ≠ some u)
      (and_congr_right fun _ => forall_user_ne_iff.symm)
  | .logout a => decidable_of_iff
      ((s.service.user a).isSome ∧
        ∀ chnl ∈ s.channels.live, ∀ r ∈ s.service.room chnl.chnlName, a ∈ r)
      (and_congr_right fun _ => forall_room_iff.symm)
  | .join a c => inferInstanceAs (Decidable ((s.service.user a).isSome ∧ a ∉ s.service.present c))
  | .leave a c => inferInstanceAs (Decidable ((s.service.user a).isSome ∧
      ∀ r ∈ s.service.room c, a ∈ r))
  | .say a c _ => inferInstanceAs (Decidable (a ∈ s.service.present c))
  | .who a _ => inferInstanceAs (Decidable ((s.service.user a).isSome = true))
  | .list _ => .isTrue trivial
  | .opened _ => .isTrue trivial
  | .relay _ _ _ => .isTrue trivial
  | .idle => .isTrue trivial

instance decidablePolite (s : ServerState) (i : Input) : Decidable (Polite s i) :=
  inferInstanceAs (Decidable (s.service.Courteous i.command))

/-- **A server refines the chat service**, on inputs that are polite. -/
def serviceRefinement :
    Refines ServerState.answers Polite chatSteps Service.Courteous where
  rel s x := Proper s ∧ x = s.service
  means i k := k = i.command
  shows := Shows
  step := by
    rintro s s' i _ _ ⟨h, rfl⟩ hc ⟨hst, rfl⟩
    obtain ⟨hp, v, hv, hshows⟩ := h.step hc hst
    exact ⟨_, _, v, rfl, hc, hv, ⟨hp, rfl⟩, hshows⟩

section Runs

variable {addrs : List Sockaddr} {unset now : ℤ}

theorem proper_start (addrs : List Sockaddr) (unset now : ℤ) :
    Proper (ServerState.start addrs unset now) := by
  refine ⟨by exact Int.zero_le_ofNat 1, List.nodup_singleton _, Int.le_refl 0, List.nodup_nil,
    List.nodup_nil, fun c chnl hf => ?_⟩
  obtain rfl := List.mem_singleton.mp (findChannel_some hf).1
  exact ⟨sound_createChannel, List.nodup_nil⟩

/-- A server starts as a service with one room. -/
theorem service_start (addrs : List Sockaddr) (unset now : ℤ) :
    (ServerState.start addrs unset now).service = Service.start common := by
  refine Service.ext rfl (funext fun c => ?_)
  show ((ServerState.start addrs unset now).byName c).map Channel.members =
    Function.update (fun _ => none) common (some ∅) c
  rw [Function.update_apply]
  by_cases hc : c = common
  · rw [if_pos hc, hc]
    rfl
  · have hnone : (ServerState.start addrs unset now).byName c = none := by
      refine findChannel_eq_none_iff.mpr ?_
      rw [show chnlNames (ServerState.start addrs unset now).channels = [common] from rfl,
        List.mem_singleton]
      exact hc
    rw [if_neg hc, hnone]
    rfl

end Runs

/-- The course of the service that a run of a server is. -/
theorem exists_course {addrs : List Sockaddr} {unset now : ℤ} {is : List Input}
    {outs : List (List Datagram)} {s : ServerState}
    (h : Trace ServerState.answers Polite (ServerState.start addrs unset now) is outs s) :
    Proper s ∧ ∃ vs, Trace chatSteps Service.Courteous (Service.start common)
      (is.map Input.command) vs s.service ∧ List.Forall₂ Shows outs vs := by
  obtain ⟨vs, x, htr, ⟨hp, rfl⟩, hvs⟩ := serviceRefinement.trace_map (fun _ _ hk => hk) h
    ⟨proper_start addrs unset now, (service_start addrs unset now).symm⟩
  exact ⟨hp, vs, htr, hvs⟩

/-- **A server provides the chat service.** In every run from the start whose inputs are polite
where they are taken: the run is a course of the service over the commands that the inputs stand
for; everybody gets the texts that the service tells them, at every step, and no other; and in the
state reached, a polite request of a client is served exactly if there is room for it. -/
theorem server_provides_service (addrs : List Sockaddr) (unset now : ℤ) (is : List Input)
    (outs : List (List Datagram)) (s : ServerState)
    (h : Trace ServerState.answers Polite (ServerState.start addrs unset now) is outs s) :
    (∃ vs, Trace chatSteps Service.Courteous (Service.start common)
        (is.map Input.command) vs s.service ∧ List.Forall₂ Shows outs vs) ∧
      ∀ a rq drawn t, Polite s (.datagram a (.client rq) drawn t) →
        ((∃ s', (react s (.datagram a (.client rq) drawn t)).result = .ok s') ↔ HasRoom s rq) := by
  obtain ⟨hp, hcourse⟩ := exists_course h
  exact ⟨hcourse, fun a rq drawn t hc => hp.served_iff hc⟩

/-- A polite run, by evaluation. -/
theorem exists_answers_of_execute {s : ServerState} {is : List Input} {p : ServerState → Bool}
    (h : (execute ServerState.next Polite s is).any p = true) :
    ∃ outs t, Trace ServerState.answers Polite s is outs t ∧ p t = true := by
  obtain ⟨t, hr, hp⟩ := exists_run_of_execute h
  obtain ⟨outs, htr⟩ := hr.exists_trace (m := ServerState.answers) fun s i t hst =>
    ⟨(react s i).out, next_eq_some_iff.mp hst, rfl⟩
  exact ⟨outs, t, htr, hp⟩

open Three in
theorem server_provides_service_on_session :
    ∃ outs s, Trace ServerState.answers Polite alone session outs s ∧
      ∃ vs, Trace chatSteps Service.Courteous (Service.start common)
        (session.map Input.command) vs s.service ∧ List.Forall₂ Shows outs vs := by
  have h : (execute ServerState.next Polite alone session).any (fun _ => true) = true := by decide
  obtain ⟨outs, s, htr, -⟩ := exists_answers_of_execute h
  exact ⟨outs, s, htr, (server_provides_service [] 0 0 session outs s htr).1⟩

theorem textsFor_eq_of_said {xs : List Text} {c : Name} {u : Username} {t : SayText}
    (h : List.Forall₂ Text.Tells xs (some (.said c u t : ChatNotice)).toList) :
    xs = [.say c u t] := by
  obtain ⟨x, ys, hx, hys, rfl⟩ := List.forall₂_cons_right_iff.mp h
  rw [List.forall₂_nil_right_iff.mp hys]
  cases x with
  | say c' u' t' =>
    obtain ⟨rfl, rfl, rfl⟩ := hx
    rfl
  | list names => exact absurd hx id
  | who c' n users whoLen => exact absurd hx id
  | error str => exact absurd hx id

/-- **Who gets a say.** In every such run, when somebody who came into a channel and has not left it
or logged out says something there, and it ends well, everybody who did so gets it, once, under the
name that the speaker logged in with; and nobody else gets anything. -/
theorem say_reaches_attendants (addrs : List Sockaddr) (unset now : ℤ) (is : List Input)
    (outs : List (List Datagram)) (s s' : ServerState) (a : Sockaddr) (c : Name) (t : SayText)
    (drawn : Id)
    (h : Trace ServerState.answers Polite (ServerState.start addrs unset now) is outs s)
    (ha : attends a c (is.map Input.command) = true)
    (hst : (reqSay s a c t drawn).result = .ok s') :
    ∃ u, signedOn a (is.map Input.command) = some u ∧
      ∀ b, textsFor b (reqSay s a c t drawn).out =
        if attends b c (is.map Input.command) then [.say c u t] else [] := by
  obtain ⟨hp, vs, htr, -⟩ := exists_course h
  have hmem : ∀ b, b ∈ s.service.present c ↔ attends b c (is.map Input.command) = true := fun b =>
    Service.mem_present_iff_attends htr
  have hc : s.service.Courteous (.say a c t : ChatCommand) := (hmem a).mpr ha
  have hst : (react s (.datagram a (.client (.say c t)) drawn 0)).result = .ok s' := hst
  obtain ⟨_, hserved⟩ := hp.say hc (hp.hasRoom hst)
  -- the speaker is in the room, so somebody is logged in there
  obtain ⟨u, hu⟩ : ∃ u, s.service.user a = some u := by
    obtain ⟨e, he, hea⟩ := mem_present.mp hc
    rw [ServerState.usersOf] at he
    split at he
    · next chnl hf =>
      obtain ⟨usr, hu, -⟩ := hp.exists_findUser hf (mem_members.mpr ⟨e, he, hea⟩)
      exact ⟨usr.username, congrArg (Option.map User.username) hu⟩
    · exact absurd he List.not_mem_nil
  refine ⟨u, (Service.user_eq_signedOn htr).symm.trans hu, fun b => ?_⟩
  have hnote : s.service.notices (.say a c t : ChatCommand) =
      s.service.toRoom c (.said c u t) := by
    rw [Service.notices, hu]
  have hshows := hserved.shows b
  rw [show (Input.datagram a (.client (.say c t)) drawn 0).command = .say a c t from rfl, hnote,
    Service.toRoom] at hshows
  by_cases hb : b ∈ s.service.present c
  · rw [if_pos ((hmem b).mp hb)]
    rw [if_pos hb] at hshows
    exact textsFor_eq_of_said hshows
  · rw [if_neg (mt (hmem b).mpr hb)]
    rw [if_neg hb] at hshows
    exact List.forall₂_nil_right_iff.mp hshows

namespace Three

/-- Two users log in and meet in Common, and one of them leaves again. -/
def meeting : List Input :=
  [enter 0, enter 1, enter 2, ask 0 (.join common), ask 1 (.join common), ask 2 (.join common),
    ask 2 (.leave common)]

end Three

open Three in
theorem say_reaches_attendants_on_meeting :
    ∃ outs s s', Trace ServerState.answers Polite alone meeting outs s ∧
      (reqSay s (client 0) common hello 1).result = .ok s' ∧
      ∃ u, signedOn (client 0) (meeting.map Input.command) = some u ∧
        ∀ b, textsFor b (reqSay s (client 0) common hello 1).out =
          if attends b common (meeting.map Input.command) then [.say common u hello] else [] := by
  have h : (execute ServerState.next Polite alone meeting).any
      (fun s => (reqSay s (client 0) common hello 1).result.isOk) = true := by decide
  obtain ⟨outs, s, htr, hok⟩ := exists_answers_of_execute h
  cases hst : (reqSay s (client 0) common hello 1).result with
  | error f =>
    rw [hst] at hok
    cases hok
  | ok s' =>
    exact ⟨outs, s, s', htr, hst, say_reaches_attendants [] 0 0 meeting outs s s' (client 0)
      common hello 1 htr (by decide) hst⟩

end DuckChat
