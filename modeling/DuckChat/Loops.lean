import DuckChat.Sound
import DuckChat.Lib.LoopFlood

/-!
# Loop pruning

A say to Common that reaches a server for the second time is answered with a leave, and the sender
stops listing the channel for that server. As long as one say is passed on at a time, the edges that
go are those that close a loop, in both directions, and what is left is a tree: the say is a
`LoopFlood`. Two says at a time can cut a server off, each by edges that the other one needs.

The leave takes the last name off the table, so Common has to be the last one.

## Main definitions

* `Ready` — the state of a server in these runs
* `OnWire`, `LoopInv` — a say on its way
* `Net.LeftConnected` — what is left of the listings
* `Gathered` — the state that the runs start from

## Main results

* `LoopInv.say`, `LoopInv.deliver` — the steps
* `loops_pruned_in_turn`, `concurrent_says_partition`
-/

set_option autoImplicit false

namespace DuckChat

open Relation (ReflTransGen)

variable {ι : Type}

/-! ### One server -/

/-- A server with neighbours, a member of Common, and Common at the end of its tables or nowhere. -/
structure Ready (addrs : List Sockaddr) (s : ServerState) : Prop where
  sound : Sound s
  neighbours : s.neighbours = addrs
  member : s.usersOf common ≠ []
  last : ∀ a, common ∉ (s.subsOf a).dropLast

section OneServer

variable {addrs : List Sockaddr} {s s' : ServerState} {a b : Sockaddr} {m : SayS2S}

theorem Ready.congr (h : Ready addrs s) (hs' : Sound s') (hc : s'.channels = s.channels)
    (hsrv : s'.cnnctSrvrs = s.cnnctSrvrs) : Ready addrs s' where
  sound := hs'
  neighbours := (congrArg (List.map Server.addr) hsrv).trans h.neighbours
  member := by
    rw [ServerState.usersOf, hc]
    exact h.member
  last a := by
    rw [subsOf_congr hsrv]
    exact h.last a

/-- The member is found, so a new say is never turned down for want of members. -/
theorem Ready.names (h : Ready addrs s) : common ∈ s.names := by
  by_contra hno
  have hmem := h.member
  rw [ServerState.usersOf, findChannel_eq_none_iff.mpr hno] at hmem
  exact hmem rfl

theorem Ready.numUsers_ne (h : Ready addrs s) {chnl : Channel}
    (hf : findChannel s.channels common = some chnl) : chnl.numUsers ≠ 0 := by
  have hmem := h.member
  rw [ServerState.usersOf, hf] at hmem
  have hpos : 0 < chnl.entries.length := List.length_pos_of_ne_nil hmem
  rw [Channel.entries, chnl.connectedUsers.length_live] at hpos
  rw [Channel.numUsers]
  omega

/-- **A say from a server**: refused if it was here before, passed on otherwise. -/
theorem Ready.servSay (h : Ready addrs s) (hm : m.reqChannel = common)
    (hr : (reqServSay s a m).result = .ok s') :
    (m.id ∈ s.recentIds.slots ∧ s' = s ∧
        (reqServSay s a m).out = [⟨a, .s2s (.leave common)⟩]) ∨
      (m.id ∉ s.recentIds.slots ∧ m.id ∈ s'.recentIds.slots ∧ s'.cnnctSrvrs = s.cnnctSrvrs ∧
        s'.channels = s.channels ∧
        ∀ q, packets q (reqServSay s a m).out = packets q (forwardPackets s a m)) := by
  generalize hx : reqServSay s a m = r at hr
  cases hx ▸ reqServSay_cases s a m with
  | fault f hf => rw [hf] at hr; cases hr
  | duplicate hd =>
    cases hr
    exact Or.inl ⟨hasId_eq_ok_true.mp hd, rfl, by rw [hm]⟩
  | prune _ _ hf hu =>
    rw [hm] at hf
    exact absurd hu (h.numUsers_ne hf)
  | forward hd hids =>
    cases hr
    refine Or.inr ⟨fun hmem => hasId_eq_ok_false.mp hd (Or.inl hmem),
      RecentIds.mem_slots_of_record hids, rfl, rfl, fun q => ?_⟩
    rw [packets_append, packets_eq_nil fun d hd => ⟨_, deliverLoop_out_text hd⟩, List.nil_append]

/-- **A leave from a server** takes Common off its table. -/
theorem Ready.servLeave (h : Ready addrs s) {c : Name} (hs' : Sound s')
    (hr : (reqServLeave s a c).result = .ok s') :
    Ready addrs s' ∧ s'.recentIds = s.recentIds ∧
      ∀ b, common ∈ s'.subsOf b ↔ common ∈ s.subsOf b ∧ b ≠ a := by
  obtain ⟨hc, hids, hn, hsub⟩ := reqServLeave_ok hr
  refine ⟨⟨hs', hn.trans h.neighbours, ?_, fun b hb => ?_⟩, hids, fun b => ?_⟩
  · rw [ServerState.usersOf, hc]
    exact h.member
  · rw [hsub] at hb
    split at hb
    · exact h.last a (List.mem_of_mem_dropLast hb)
    · exact h.last b hb
  · rw [hsub]
    by_cases hb : b = a
    · rw [if_pos hb, hb]
      exact iff_of_false (h.last a) fun hc => hc.2 rfl
    · rw [if_neg hb]
      exact ⟨fun hc => ⟨hc, hb⟩, fun hc => hc.1⟩

/-- **A say of a member** is recorded and sent to every neighbour that is listed. -/
theorem Ready.say (h : Ready addrs s) {t : SayText} {drawn : Id} (hs' : Sound s')
    (hr : (reqSay s a common t drawn).result = .ok s') :
    Ready addrs s' ∧ s'.subsOf = s.subsOf ∧ drawn ∈ s'.recentIds.slots ∧
      ∃ name, ∀ q, packets q (reqSay s a common t drawn).out =
        packets q (sayPackets s ⟨drawn, name, common, t⟩) := by
  rcases reqSay_cases s a common t drawn with ⟨f, hf, -⟩ | ⟨_, usr, ids, -, -, hids, -, hok, ho⟩
  · rw [hf] at hr
    cases hr
  · rw [hok] at hr
    cases hr
    refine ⟨h.congr hs' rfl rfl, rfl, RecentIds.mem_slots_of_record hids, usr.username,
      fun q => ?_⟩
    rw [ho, packets_append, packets_eq_nil fun d hd => sayLoop_out_text hd, List.nil_append]
    rfl

end OneServer

/-! ### A say on its way -/

/-- The say on the wire from `u` to `v`. -/
def sayOn (T : Topology ι) (m : SayS2S) (u v : ι) : Packet := ⟨T.addr u, T.addr v, .say m⟩

/-- The refusal on the wire from `v` to `u`. -/
def refusalOf (T : Topology ι) (u v : ι) : Packet := ⟨T.addr v, T.addr u, .leave common⟩

/-- What the links put on the wires. -/
def OnWire (T : Topology ι) (m : SayS2S) (link : ι → ι → Link) (p : Packet) : Prop :=
  (∃ u v, link u v = .sent ∧ p = sayOn T m u v) ∨ ∃ u v, link u v = .refused ∧ p = refusalOf T u v

section OnWire

variable {T : Topology ι} {m : SayS2S} {link : ι → ι → Link} {p : Packet} {u v a b : ι}

theorem sayOn_inj : sayOn T m u v = sayOn T m a b ↔ a = u ∧ b = v := by
  constructor
  · intro h
    exact ⟨(T.addr.injective (congrArg Packet.src h)).symm,
      (T.addr.injective (congrArg Packet.dst h)).symm⟩
  · rintro ⟨rfl, rfl⟩
    rfl

theorem refusalOf_inj : refusalOf T u v = refusalOf T a b ↔ a = u ∧ b = v := by
  constructor
  · intro h
    exact ⟨(T.addr.injective (congrArg Packet.dst h)).symm,
      (T.addr.injective (congrArg Packet.src h)).symm⟩
  · rintro ⟨rfl, rfl⟩
    rfl

theorem sayOn_ne_refusalOf : sayOn T m u v ≠ refusalOf T a b := fun h => by
  cases congrArg Packet.msg h

theorem onWire_sayOn : OnWire T m link (sayOn T m u v) ↔ link u v = .sent := by
  constructor
  · rintro (⟨a, b, hab, he⟩ | ⟨a, b, -, he⟩)
    · obtain ⟨rfl, rfl⟩ := sayOn_inj.mp he
      exact hab
    · exact absurd he sayOn_ne_refusalOf
  · exact fun h => Or.inl ⟨u, v, h, rfl⟩

theorem onWire_refusalOf : OnWire T m link (refusalOf T u v) ↔ link u v = .refused := by
  constructor
  · rintro (⟨a, b, -, he⟩ | ⟨a, b, hab, he⟩)
    · exact absurd he.symm sayOn_ne_refusalOf
    · obtain ⟨rfl, rfl⟩ := refusalOf_inj.mp he
      exact hab
  · exact fun h => Or.inr ⟨u, v, h, rfl⟩

variable [DecidableEq ι]

/-- A say arrives and is refused. -/
theorem onWire_refuse (huv : link u v = .sent) :
    OnWire T m (setLink link u v .refused) p ↔
      (p ≠ sayOn T m u v ∧ OnWire T m link p) ∨ p = refusalOf T u v := by
  constructor
  · rintro (⟨a, b, hl, rfl⟩ | ⟨a, b, hl, rfl⟩)
    · rcases setLink_eq.mp hl with ⟨-, -, hc⟩ | ⟨hne, hl⟩
      · cases hc
      · exact Or.inl ⟨fun he => hne (sayOn_inj.mp he.symm), onWire_sayOn.mpr hl⟩
    · rcases setLink_eq.mp hl with ⟨rfl, rfl, -⟩ | ⟨-, hl⟩
      · exact Or.inr rfl
      · exact Or.inl ⟨sayOn_ne_refusalOf.symm, onWire_refusalOf.mpr hl⟩
  · rintro (⟨hne, ⟨a, b, hl, rfl⟩ | ⟨a, b, hl, rfl⟩⟩ | rfl)
    · refine Or.inl ⟨a, b, setLink_eq.mpr (Or.inr ⟨fun he => hne ?_, hl⟩), rfl⟩
      exact (sayOn_inj.mpr he).symm
    · refine Or.inr ⟨a, b, setLink_eq.mpr (Or.inr ⟨?_, hl⟩), rfl⟩
      rintro ⟨rfl, rfl⟩
      rw [huv] at hl
      cases hl
    · exact Or.inr ⟨u, v, setLink_eq.mpr (Or.inl ⟨rfl, rfl, rfl⟩), rfl⟩

/-- A refusal arrives. -/
theorem onWire_cut (huv : link u v = .refused) :
    OnWire T m (setLink link u v .cut) p ↔ p ≠ refusalOf T u v ∧ OnWire T m link p := by
  constructor
  · rintro (⟨a, b, hl, rfl⟩ | ⟨a, b, hl, rfl⟩)
    · rcases setLink_eq.mp hl with ⟨-, -, hc⟩ | ⟨-, hl⟩
      · cases hc
      · exact ⟨sayOn_ne_refusalOf, onWire_sayOn.mpr hl⟩
    · rcases setLink_eq.mp hl with ⟨-, -, hc⟩ | ⟨hne, hl⟩
      · cases hc
      · exact ⟨fun he => hne (refusalOf_inj.mp he.symm), onWire_refusalOf.mpr hl⟩
  · rintro ⟨hne, ⟨a, b, hl, rfl⟩ | ⟨a, b, hl, rfl⟩⟩
    · refine Or.inl ⟨a, b, setLink_eq.mpr (Or.inr ⟨?_, hl⟩), rfl⟩
      rintro ⟨rfl, rfl⟩
      rw [huv] at hl
      cases hl
    · refine Or.inr ⟨a, b, setLink_eq.mpr (Or.inr ⟨fun he => hne ?_, hl⟩), rfl⟩
      exact (refusalOf_inj.mpr he).symm

/-- A say arrives and is passed on. -/
theorem onWire_accept (huv : link u v = .sent)
    (hv : ∀ w, link v w = .idle ∨ link v w = .cut) :
    OnWire T m (acceptLink link u v) p ↔ (p ≠ sayOn T m u v ∧ OnWire T m link p) ∨
      ∃ w, w ≠ u ∧ link v w ≠ .cut ∧ p = sayOn T m v w := by
  constructor
  · rintro (⟨a, b, hl, rfl⟩ | ⟨a, b, hl, rfl⟩)
    · rcases (acceptLink_sent huv hv).mp hl with ⟨hl, hne⟩ | ⟨rfl, hb, hl⟩
      · exact Or.inl ⟨fun he => hne (sayOn_inj.mp he.symm), onWire_sayOn.mpr hl⟩
      · exact Or.inr ⟨b, hb, hl, rfl⟩
    · exact Or.inl ⟨sayOn_ne_refusalOf.symm,
        onWire_refusalOf.mpr ((acceptLink_refused huv hv).mp hl)⟩
  · rintro (⟨hne, ⟨a, b, hl, rfl⟩ | ⟨a, b, hl, rfl⟩⟩ | ⟨w, hw, hl, rfl⟩)
    · refine Or.inl ⟨a, b, (acceptLink_sent huv hv).mpr (Or.inl ⟨hl, fun he => hne ?_⟩), rfl⟩
      exact (sayOn_inj.mpr he).symm
    · exact Or.inr ⟨a, b, (acceptLink_refused huv hv).mpr hl, rfl⟩
    · exact Or.inl ⟨v, w, (acceptLink_sent huv hv).mpr (Or.inr ⟨rfl, hw, hl⟩), rfl⟩

end OnWire

/-! ### The invariant -/

/-- What is left of the listings of Common is symmetric and connects all servers. -/
def Net.LeftConnected (T : Topology ι) (n : Net ι) : Prop :=
  (∀ u v, n.Lists u (T.addr v) common → n.Lists v (T.addr u) common) ∧
    ∀ u v, ReflTransGen (fun x y => n.Lists x (T.addr y) common) u v

/-- No say is on its way. -/
structure Settled (T : Topology ι) (n : Net ι) : Prop where
  node : ∀ i, ∃ s, n.node i = .running s ∧ Ready (T.nbrAddrs i) s
  quiet : n.flight = []
  left : n.LeftConnected T

/-- The say `m` is on its way from `o` along the listings `L`. -/
structure LoopInv (T : Topology ι) (n : Net ι) (m : SayS2S) (L : ι → ι → Prop) (o : ι)
    (link : ι → ι → Link) : Prop where
  node : ∀ i, ∃ s, n.node i = .running s ∧ Ready (T.nbrAddrs i) s
  channel : m.reqChannel = common
  symm : ∀ u v, L u v → L v u
  conn : ∀ v, ReflTransGen L o v
  lists : ∀ u v, n.Lists u (T.addr v) common ↔ link u v ≠ .cut
  wire : ∀ p, p ∈ n.flight ↔ OnWire T m link p
  nodup : n.flight.Nodup
  flood : LoopFlood L o (fun v => n.isFresh v m.id = false) link

section Inv

variable {T : Topology ι} {n n' : Net ι} {m : SayS2S} {L : ι → ι → Prop} {o i : ι}
  {link : ι → ι → Link} {s : ServerState}

theorem Ready.nodup_neighbours (h : Ready (T.nbrAddrs i) s) : s.neighbours.Nodup := by
  rw [h.neighbours]
  exact (T.nodup i).map T.addr.injective

theorem Ready.exists_of_subsOf (h : Ready (T.nbrAddrs i) s) {b : Sockaddr} {c : Name}
    (hb : c ∈ s.subsOf b) : ∃ v, T.addr v = b := by
  have hmem := mem_neighbours_of_mem_subsOf hb
  rw [h.neighbours] at hmem
  obtain ⟨v, -, hv⟩ := List.mem_map.mp hmem
  exact ⟨v, hv⟩

/-- When nothing is in flight, the flood is over. -/
theorem LoopInv.settled (h : LoopInv T n m L o link) (hq : n.flight = []) : Settled T n := by
  have hquiet : ∀ u v, link u v ≠ .sent ∧ link u v ≠ .refused := by
    intro u v
    constructor
    · intro hl
      have hp := (h.wire _).mpr (onWire_sayOn.mpr hl)
      rw [hq] at hp
      cases hp
    · intro hl
      have hp := (h.wire _).mpr (onWire_refusalOf.mpr hl)
      rw [hq] at hp
      cases hp
  refine ⟨h.node, hq, fun u v huv => ?_, fun u v => ?_⟩
  · have hall := h.flood.all_reached hquiet h.conn
    exact (h.lists v u).mpr (h.flood.symm h.symm hquiet hall ((h.lists u v).mp huv))
  · exact ReflTransGen.mono (fun x y hxy => (h.lists x y).mpr hxy) _ _
      (h.flood.connected h.symm hquiet h.conn u v)

/-- Taking one of the packets off the wire. -/
theorem LoopInv.mem_take (h : LoopInv T n m L o link) {p q : Packet} :
    p ∈ (n.take q).flight ↔ p ≠ q ∧ OnWire T m link p :=
  (h.nodup.mem_erase_iff).trans (and_congr_right fun _ => h.wire p)

end Inv

/-! ### The steps -/

section Steps

variable [DecidableEq ι] {T : Topology ι} {n n' : Net ι} {m : SayS2S} {L : ι → ι → Prop}
  {o i u v : ι} {link : ι → ι → Link} {s s' : ServerState}

/-- The other servers stay as they are. -/
theorem ready_of_ne (h : ∀ j, ∃ t, n.node j = .running t ∧ Ready (T.nbrAddrs j) t)
    (hi : n'.node i = .running s') (hr : Ready (T.nbrAddrs i) s')
    (hj : ∀ j, j ≠ i → n'.node j = n.node j) (j : ι) :
    ∃ t, n'.node j = .running t ∧ Ready (T.nbrAddrs j) t := by
  by_cases hji : j = i
  · subst hji
    exact ⟨s', hi, hr⟩
  · rw [hj j hji]
    exact h j

/-- Nor do the listings of a server that changes none. -/
theorem lists_of_subsOf_eq (hs : n.node i = .running s) (hi : n'.node i = .running s')
    (hsub : s'.subsOf = s.subsOf) (hj : ∀ j, j ≠ i → n'.node j = n.node j) (j : ι) (a : Sockaddr)
    (c : Name) : n'.Lists j a c ↔ n.Lists j a c := by
  by_cases hji : j = i
  · subst hji
    rw [Net.lists_iff hs, Net.lists_iff hi, hsub]
  · exact Net.lists_congr (hj j hji)

/-- A server has recorded the identifier. -/
theorem isFresh_of_record {id : Id} (hi : n'.node i = .running s')
    (hid : id ∈ s'.recentIds.slots) (hj : ∀ j, j ≠ i → n'.node j = n.node j) (j : ι) :
    n'.isFresh j id = false ↔ n.isFresh j id = false ∨ j = i := by
  by_cases hji : j = i
  · subst hji
    refine iff_of_true ?_ (Or.inr rfl)
    rw [← Bool.not_eq_true, Net.isFresh_iff _ hi]
    exact not_not.mpr hid
  · rw [Net.isFresh_congr (hj j hji), or_iff_left hji]

/-- **A say of a member** with a new identifier starts a flood. -/
theorem Settled.say {a : Sockaddr} {t : SayText} {drawn : Id} {now : ℤ} (h : Settled T n)
    (ha : n.isMember i a common = true) (hid : ∀ j, n.isFresh j drawn = true) :
    (n.act T.addr i (.datagram a (.client (.say common t)) drawn now)).Overrun ∨
      ∃ m L o link, LoopInv T
        (n.act T.addr i (.datagram a (.client (.say common t)) drawn now)) m L o link := by
  obtain ⟨s, hs, hready⟩ := h.node i
  obtain ⟨chnl, u, hf, hu, hua⟩ := Net.exists_of_isMember hs ha
  rcases Net.overrun_or_ok T.addr hs rfl
    (show Safe Sound (react s (.datagram a (.client (.say common t)) drawn now)) from
      hready.sound.reqSay hf hu hua) with ho | ⟨s', hr, hs', hi, hj, hfl⟩
  · exact Or.inl ho
  obtain ⟨hready', hsub, hrec, name, hout⟩ := hready.say hs' hr
  generalize n.act T.addr i _ = n' at hi hj hfl ⊢
  have hlists := lists_of_subsOf_eq hs hi hsub hj
  have hnd := hready.nodup_neighbours
  rw [h.quiet, List.nil_append, show packets (T.addr i) (react s _).out = _ from hout _] at hfl
  refine Or.inr ⟨⟨drawn, name, common, t⟩, fun u v => n.Lists u (T.addr v) common, i, startLink _ i,
    { node := ready_of_ne h.node hi hready' hj
      channel := rfl
      symm := h.left.1
      conn := h.left.2 i
      lists := fun u v => ?_
      wire := fun p => ?_
      nodup := ?_
      flood := LoopFlood.start fun v => ?_ }⟩
  · rw [hlists, Ne, startLink_cut, not_not]
  · rw [hfl, mem_packets, mem_sayPackets hnd]
    constructor
    · rintro ⟨hsrc, b, hb, he⟩
      obtain ⟨v, rfl⟩ := hready.exists_of_subsOf hb
      obtain ⟨ps, pd, pm⟩ := p
      cases hsrc
      cases he
      exact Or.inl ⟨i, v, startLink_sent.mpr ⟨(Net.lists_iff hs).mpr hb, rfl⟩, rfl⟩
    · rintro (⟨u, v, hl, rfl⟩ | ⟨u, v, hl, -⟩)
      · obtain ⟨hlist, rfl⟩ := startLink_sent.mp hl
        exact ⟨rfl, _, (Net.lists_iff hs).mp hlist, rfl⟩
      · exact absurd hl startLink_refused
  · rw [hfl]
    exact nodup_packets_map hnd _ _
  · rw [isFresh_of_record hi hrec hj, or_iff_right]
    rw [hid v]
    exact Bool.noConfusion

/-- A say that was here before is refused. -/
theorem LoopInv.refuse (h : LoopInv T n m L o link) (huv : link u v = .sent)
    (hv : n.isFresh v m.id = false) (hnode : n'.node = n.node)
    (hfl : n'.flight = (n.take (sayOn T m u v)).flight ++ [refusalOf T u v]) :
    LoopInv T n' m L o (setLink link u v .refused) := by
  have hfresh : (fun x => n'.isFresh x m.id = false) = fun x => n.isFresh x m.id = false := by
    funext x
    rw [Net.isFresh_congr (congrFun hnode x)]
  refine ⟨fun j => ?_, h.channel, h.symm, h.conn, fun x y => ?_, fun p => ?_, ?_, ?_⟩
  · rw [hnode]
    exact h.node j
  · rw [Net.lists_congr (congrFun hnode x), h.lists, Ne, Ne, setLink_eq]
    by_cases hxy : x = u ∧ y = v
    · rw [hxy.1, hxy.2, huv]
      simp
    · simp [hxy]
  · rw [hfl, List.mem_append, h.mem_take, List.mem_singleton, onWire_refuse huv]
  · rw [hfl]
    refine List.Nodup.append (h.nodup.erase _) (List.nodup_singleton _) fun p hp hp' => ?_
    rw [List.mem_singleton.mp hp'] at hp
    have hl := onWire_refusalOf.mp (h.mem_take.mp hp).2
    rw [huv] at hl
    cases hl
  · rw [hfresh]
    exact h.flood.set (Or.inl huv) (Or.inl rfl) hv

/-- A say that is new is passed on. -/
theorem LoopInv.accept (h : LoopInv T n m L o link) (huv : link u v = .sent)
    (hs : n.node v = .running s) (hready : Ready (T.nbrAddrs v) s)
    (hv : ¬ n.isFresh v m.id = false) (hi : n'.node v = .running s')
    (hready' : Ready (T.nbrAddrs v) s') (hsub : s'.subsOf = s.subsOf)
    (hrec : m.id ∈ s'.recentIds.slots) (hj : ∀ j, j ≠ v → n'.node j = n.node j)
    (hfl : n'.flight = (n.take (sayOn T m u v)).flight ++
      packets (T.addr v) (forwardPackets s (T.addr u) m)) :
    LoopInv T n' m L o (acceptLink link u v) := by
  have hidle := h.flood.unreached hv
  have hsent : ∀ p, p ∈ packets (T.addr v) (forwardPackets s (T.addr u) m) ↔
      ∃ w, w ≠ u ∧ link v w ≠ .cut ∧ p = sayOn T m v w := by
    intro p
    rw [mem_packets, mem_forwardPackets hready.nodup_neighbours, h.channel]
    constructor
    · rintro ⟨hsrc, b, hbu, hb, he⟩
      obtain ⟨w, rfl⟩ := hready.exists_of_subsOf hb
      obtain ⟨ps, pd, pm⟩ := p
      cases hsrc
      cases he
      exact ⟨w, fun hwu => hbu (by rw [hwu]), (h.lists v w).mp ((Net.lists_iff hs).mpr hb), rfl⟩
    · rintro ⟨w, hwu, hl, rfl⟩
      refine ⟨rfl, T.addr w, fun he => hwu (T.addr.injective he), ?_, rfl⟩
      exact (Net.lists_iff hs).mp ((h.lists v w).mpr hl)
  refine ⟨ready_of_ne h.node hi hready' hj, h.channel, h.symm, h.conn, fun x y => ?_, fun p => ?_,
    ?_, h.flood.accept huv hv fun x => isFresh_of_record hi hrec hj x⟩
  · rw [lists_of_subsOf_eq hs hi hsub hj, h.lists, Ne, Ne, acceptLink_cut huv]
  · rw [hfl, List.mem_append, h.mem_take, hsent, onWire_accept huv hidle]
  · rw [hfl]
    refine List.Nodup.append (h.nodup.erase _)
      (nodup_packets_map hready.nodup_neighbours _ _) fun p hp hp' => ?_
    obtain ⟨w, -, -, rfl⟩ := (hsent p).mp hp'
    have hl := onWire_sayOn.mp (h.mem_take.mp hp).2
    rcases hidle w with hl' | hl' <;> rw [hl] at hl' <;> cases hl'

/-- **The arrival of a say.** -/
theorem LoopInv.deliverSay {now : ℤ} (h : LoopInv T n m L o link) (huv : link u v = .sent) :
    ((n.take (sayOn T m u v)).act T.addr v
        (.datagram (T.addr u) (.s2s (.say m)) 0 now)).Overrun ∨
      ∃ link', LoopInv T ((n.take (sayOn T m u v)).act T.addr v
        (.datagram (T.addr u) (.s2s (.say m)) 0 now)) m L o link' := by
  obtain ⟨s, hs, hready⟩ := h.node v
  have hc : m.reqChannel ∈ s.names := by
    rw [h.channel]
    exact hready.names
  rcases Net.overrun_or_ok T.addr hs (n.take_node (sayOn T m u v))
    (show Safe Sound (react s (.datagram (T.addr u) (.s2s (.say m)) 0 now)) from
      hready.sound.reqServSay hc) with ho | ⟨s', hr, hs', hi, hj, hfl⟩
  · exact Or.inl ho
  generalize (n.take (sayOn T m u v)).act T.addr v _ = n' at hi hj hfl ⊢
  have hfresh := Net.isFresh_iff m.id hs
  refine Or.inr ?_
  rcases hready.servSay h.channel hr with ⟨hseen, rfl, hout⟩ | ⟨hnew, hrec, hsrv, hchan, hout⟩
  · refine ⟨_, h.refuse huv ?_ ?_ ?_⟩
    · rw [← Bool.not_eq_true, hfresh]
      exact not_not.mpr hseen
    · funext j
      by_cases hjv : j = v
      · rw [hjv, hi, hs]
      · exact hj j hjv
    · rw [hfl]
      show _ ++ packets (T.addr v) (reqServSay s' (T.addr u) m).out = _
      rw [hout]
      rfl
  · refine ⟨_, h.accept huv hs hready ?_ hi (hready.congr hs' hchan hsrv) (subsOf_congr hsrv) hrec
      hj ?_⟩
    · rw [Bool.not_eq_false, hfresh]
      exact hnew
    · rw [hfl]
      show _ ++ packets (T.addr v) (reqServSay s (T.addr u) m).out = _
      rw [hout]

/-- **The arrival of a refusal.** -/
theorem LoopInv.deliverLeave {now : ℤ} (h : LoopInv T n m L o link) (huv : link u v = .refused) :
    ((n.take (refusalOf T u v)).act T.addr u
        (.datagram (T.addr v) (.s2s (.leave common)) 0 now)).Overrun ∨
      ∃ link', LoopInv T ((n.take (refusalOf T u v)).act T.addr u
        (.datagram (T.addr v) (.s2s (.leave common)) 0 now)) m L o link' := by
  obtain ⟨s, hs, hready⟩ := h.node u
  have hne : link u v ≠ .cut := by
    rw [huv]
    exact Link.noConfusion
  have hlisted : common ∈ s.subsOf (T.addr v) := (Net.lists_iff hs).mp ((h.lists u v).mpr hne)
  obtain ⟨t, ht, hsound⟩ := hready.sound.reqServLeave (c := common)
    (mem_neighbours_of_mem_subsOf hlisted) (List.ne_nil_of_mem hlisted)
  rcases Net.overrun_or_ok T.addr hs (n.take_node (refusalOf T u v))
    (show Safe Sound (react s (.datagram (T.addr v) (.s2s (.leave common)) 0 now)) from
      Emit.Post.of_ok ht hsound) with ho | ⟨s', hr, hs', hi, hj, hfl⟩
  · exact Or.inl ho
  obtain ⟨hready', hids, hsub⟩ := hready.servLeave hs' hr
  generalize (n.take (refusalOf T u v)).act T.addr u _ = n' at hi hj hfl ⊢
  have hflight : n'.flight = (n.take (refusalOf T u v)).flight := by
    rw [hfl]
    show _ ++ packets (T.addr u) (reqServLeave s (T.addr v) common).out = _
    rw [(reqServLeave_cases s (T.addr v) common).1, packets_nil, List.append_nil]
  have hfresh : (fun x => n'.isFresh x m.id = false) = fun x => n.isFresh x m.id = false := by
    funext x
    by_cases hxu : x = u
    · rw [hxu, Net.isFresh, Net.isFresh, hi, hs]
      simp only [hids]
    · rw [Net.isFresh_congr (hj x hxu)]
  refine Or.inr ⟨setLink link u v .cut, ready_of_ne h.node hi hready' hj, h.channel, h.symm, h.conn,
    fun x y => ?_, fun p => ?_, ?_, ?_⟩
  · rw [Ne, setLink_eq]
    by_cases hxu : x = u
    · rw [hxu, Net.lists_iff hi, hsub, ← Net.lists_iff hs, h.lists]
      by_cases hy : y = v
      · simp [hy]
      · simp [hy]
    · rw [Net.lists_congr (hj x hxu), h.lists]
      simp [hxu]
  · rw [hflight, h.mem_take, onWire_cut huv]
  · rw [hflight]
    exact h.nodup.erase _
  · rw [hfresh]
    exact h.flood.set (Or.inr huv) (Or.inr rfl)
      (h.flood.arrived u v (h.flood.of_ne_cut hne) (Or.inr (Or.inl huv)))

end Steps

/-! ### The runs -/

/-- Nothing is in flight, every server has a member of Common and lists it for its neighbours. -/
structure Gathered (T : Topology ι) (n : Net ι) : Prop where
  quiet : n.flight = []
  node : ∀ i, ∃ s, n.node i = .running s ∧ Sound s ∧ s.neighbours = T.nbrAddrs i ∧
    s.usersOf common ≠ []
  listed : ∀ u v, v ∈ T.nbrs u → n.Lists u (T.addr v) common

namespace Net

/-- Says of members to Common, and deliveries. -/
def saysToCommon (n : Net ι) : Action ι → Bool
  | .client i clientAddr (.say c _) _ _ => c = common ∧ n.isMember i clientAddr common
  | .deliver _ _ _ => true
  | _ => false

/-- A say is made when nothing is in flight. -/
def inTurn (n : Net ι) : Action ι → Bool
  | .client _ _ _ _ _ => n.flight = []
  | _ => true

/-- A say has an identifier that no server has recorded. -/
def NewId (n : Net ι) : Action ι → Prop
  | .client _ _ _ drawn _ => ∀ i, n.isFresh i drawn
  | _ => True

instance [Fintype ι] (n : Net ι) (a : Action ι) : Decidable (n.NewId a) :=
  match a with
  | .client _ _ _ drawn _ => inferInstanceAs (Decidable (∀ i, n.isFresh i drawn))
  | .deliver _ _ _ => isTrue trivial
  | .timeouts _ _ => isTrue trivial
  | .renewal _ _ => isTrue trivial
  | .lose _ => isTrue trivial
  | .duplicate _ => isTrue trivial

/-- After every run of certain actions, when nothing is in flight, the listings of Common lead from
every server to every other. -/
def StaysConnected [DecidableEq ι] (T : Topology ι) (n₀ : Net ι) (ok : Net ι → Action ι → Prop) :
    Prop :=
  ∀ (acts : List (Action ι)) (n : Net ι), Run (Net.step T.addr) ok n₀ acts n → ¬ n.Overrun →
    n.flight = [] → ∀ u v, ReflTransGen (fun x y => n.Lists x (T.addr y) common) u v

end Net

/-- No say is on its way, or one is. -/
def TurnInv (T : Topology ι) (n : Net ι) : Prop :=
  Settled T n ∨ ∃ m L o link, LoopInv T n m L o link

theorem Gathered.settled {T : Topology ι} {n : Net ι} (h : Gathered T n)
    (hconn : ∀ u v, ReflTransGen (fun x y => y ∈ T.nbrs x) u v)
    (hlast : ∀ i s, n.node i = .running s → ∀ a, common ∉ (s.subsOf a).dropLast) :
    Settled T n where
  node i := by
    obtain ⟨s, hs, hsound, hn, hm⟩ := h.node i
    exact ⟨s, hs, hsound, hn, hm, hlast i s hs⟩
  quiet := h.quiet
  left := by
    refine ⟨fun u v hl => h.listed v u ?_, fun u v => ?_⟩
    · obtain ⟨s, hs, -, hn, -⟩ := h.node u
      have hmem := mem_neighbours_of_mem_subsOf ((Net.lists_iff hs).mp hl)
      rw [hn] at hmem
      exact T.symm u v (Topology.mem_nbrAddrs.mp hmem)
    · exact ReflTransGen.mono (fun x y hy => h.listed x y hy) _ _ (hconn u v)

/-- **The step lemma for the network.** -/
theorem TurnInv.step [DecidableEq ι] {T : Topology ι} {n n' : Net ι} {a : Action ι}
    (h : TurnInv T n) (ha : n.saysToCommon a) (hturn : n.inTurn a) (hid : n.NewId a)
    (hst : Net.step T.addr n a = some n') : n'.Overrun ∨ TurnInv T n' := by
  cases a with
  | client i clientAddr rq drawn now =>
    have hq : n.flight = [] := of_decide_eq_true hturn
    have hset : Settled T n := by
      rcases h with h | ⟨m, L, o, link, h⟩
      · exact h
      · exact h.settled hq
    cases rq with
    | say c t =>
      obtain ⟨rfl, hm⟩ := of_decide_eq_true ha
      cases hst
      exact (hset.say hm hid).imp_right Or.inr
    | login u => cases ha
    | logout => cases ha
    | join c => cases ha
    | leave c => cases ha
    | list => cases ha
    | who c => cases ha
    | other k => cases ha
  | deliver i p now =>
    simp only [Net.step] at hst
    split at hst
    case isFalse => cases hst
    next hp =>
    cases hst
    rcases h with h | ⟨m, L, o, link, h⟩
    · have hnil := hp.1
      rw [h.quiet] at hnil
      cases hnil
    · rcases (h.wire p).mp hp.1 with ⟨u, v, hl, rfl⟩ | ⟨u, v, hl, rfl⟩
      · cases T.addr.injective hp.2
        refine (h.deliverSay hl).imp_right ?_
        rintro ⟨l, hl⟩
        exact Or.inr ⟨m, L, o, l, hl⟩
      · cases T.addr.injective hp.2
        refine (h.deliverLeave hl).imp_right ?_
        rintro ⟨l, hl⟩
        exact Or.inr ⟨m, L, o, l, hl⟩
  | timeouts i now => cases ha
  | renewal i now => cases ha
  | lose p => cases ha
  | duplicate p => cases ha

/-- **Says in turn leave a channel in one piece.** In a connected network where every server has a
member of Common and lists it, once and at the end of its tables, for every neighbour, members make
says, each with a new identifier and when nothing is in flight; the packets that follow are
delivered in any order. As long as no table outgrows its size, whenever nothing is in flight the
listings lead from every server to every other. -/
theorem loops_pruned_in_turn [DecidableEq ι] (T : Topology ι) (n₀ : Net ι)
    (hconn : ∀ u v, ReflTransGen (fun x y => y ∈ T.nbrs x) u v) (h : Gathered T n₀)
    (hlast : ∀ i s, n₀.node i = .running s → ∀ a, common ∉ (s.subsOf a).dropLast) :
    n₀.StaysConnected T fun n a => n.saysToCommon a ∧ n.inTurn a ∧ n.NewId a := by
  intro acts n hrun hcap hq
  have hinv : n.Overrun ∨ TurnInv T n :=
    hrun.invariant (P := fun m => m.Overrun ∨ TurnInv T m)
      (fun m a m' hm ha hst => hm.elim (fun ho => Or.inl (ho.of_step hst))
        fun hi => hi.step ha.1 ha.2.1 ha.2.2 hst)
      (Or.inr (Or.inl (h.settled hconn hlast)))
  rcases hinv.resolve_left hcap with hset | ⟨m, L, o, link, hi⟩
  · exact hset.left.2
  · exact (hi.settled hq).left.2

/-! ### A triangle -/

namespace Three

/-- The triangle after all clients have joined Common. -/
def gathered : Net (Fin 3) where
  node i := .running { withUser i with
    cnnctSrvrs := (triangle.nbrAddrs i).map fun a => startServer a 0 }
  flight := []
  log := []

theorem gathered_ok : Gathered triangle gathered where
  quiet := rfl
  node i := ⟨_, rfl, ⟨by revert i; decide, by revert i; decide, by revert i; decide,
    by revert i; decide⟩, by revert i; decide, by revert i; decide⟩
  listed := by decide

/-- Its tables are those of the start. -/
theorem gathered_last (i : Fin 3) (s : ServerState) (hs : gathered.node i = .running s)
    (a : Sockaddr) : common ∉ (s.subsOf a).dropLast := by
  cases hs
  rw [ServerState.subsOf]
  split
  · next srvr hsrvr =>
    obtain ⟨b, -, rfl⟩ := List.mem_map.mp (findServerAddress_some hsrvr).1
    exact List.not_mem_nil
  · exact List.not_mem_nil

/-- One say goes around: it is refused on the edge between the two others. -/
def sayAround : List (Action (Fin 3)) :=
  [request 0 (.say common hello) 1, deliver 0 1 (sayBy 0 common 1), deliver 0 2 (sayBy 0 common 1),
    deliver 1 2 (sayBy 0 common 1), deliver 2 1 (sayBy 0 common 1), deliver 2 1 (.leave common),
    deliver 1 2 (.leave common)]

/-- The same identifier again: both others refuse it. -/
def sayTwice : List (Action (Fin 3)) :=
  sayAround ++ [request 0 (.say common hello) 1, deliver 0 1 (sayBy 0 common 1),
    deliver 0 2 (sayBy 0 common 1), deliver 1 0 (.leave common), deliver 2 0 (.leave common)]

/-- Two says at a time: each is refused where it meets its other copy, and for server 2 that is on
both edges. -/
def saysCrossing : List (Action (Fin 3)) :=
  [request 0 (.say common hello) 1, request 1 (.say common hello) 2,
    deliver 0 2 (sayBy 0 common 1), deliver 1 2 (sayBy 1 common 2), deliver 0 1 (sayBy 0 common 1),
    deliver 1 0 (sayBy 1 common 2), deliver 2 1 (sayBy 0 common 1), deliver 2 0 (sayBy 1 common 2),
    deliver 1 2 (sayBy 0 common 1), deliver 0 2 (sayBy 1 common 2), deliver 1 2 (.leave common),
    deliver 0 2 (.leave common), deliver 2 1 (.leave common), deliver 2 0 (.leave common)]

theorem triangle_connected (u v : Fin 3) :
    ReflTransGen (fun x y => y ∈ triangle.nbrs x) u v := by
  by_cases h : u = v
  · rw [h]
  · refine ReflTransGen.single ?_
    revert h
    revert u v
    decide

end Three

open Three in
theorem loops_pruned_on_triangle :
    ∃ n, Run (Net.step addr) (fun n a => n.saysToCommon a ∧ n.inTurn a ∧ n.NewId a) gathered
        sayAround n ∧ ¬ n.Lists 1 (addr 2) common ∧
      ReflTransGen (fun x y => n.Lists x (addr y) common) 1 2 := by
  have h : (execute (Net.step addr) (fun n a => n.saysToCommon a ∧ n.inTurn a ∧ n.NewId a) gathered
      sayAround).any (fun n => n.flight = [] ∧ ¬ n.Lists 1 (addr 2) common ∧
        ∀ i, (n.node i).isRunning) = true := by
    decide
  obtain ⟨n, hr, hn⟩ := exists_run_of_execute h
  obtain ⟨hq, hno, hok⟩ := of_decide_eq_true hn
  exact ⟨n, hr, hno, loops_pruned_in_turn triangle gathered triangle_connected gathered_ok
    gathered_last _ n hr (Net.not_overrun_of_isRunning hok) hq 1 2⟩

open Three in
/-- Two says that cross cut server 2 off. Neither new identifiers nor taking turns is enough to
prevent this alone. -/
theorem concurrent_says_partition :
    (¬ ∀ n₀, Gathered triangle n₀ → n₀.StaysConnected triangle fun n a => n.saysToCommon a) ∧
      (¬ ∀ n₀, Gathered triangle n₀ →
        n₀.StaysConnected triangle fun n a => n.saysToCommon a ∧ n.NewId a) ∧
      ¬ ∀ n₀, Gathered triangle n₀ →
        n₀.StaysConnected triangle fun n a => n.saysToCommon a ∧ n.inTurn a := by
  have hcross : ¬ ∀ n₀, Gathered triangle n₀ →
      n₀.StaysConnected triangle fun n a => n.saysToCommon a ∧ n.NewId a := by
    intro hall
    have h : (execute (Net.step addr) (fun n a => n.saysToCommon a ∧ n.NewId a) gathered
        saysCrossing).any (fun n => n.flight = [] ∧ (∀ i, (n.node i).isRunning) ∧
          ∀ x, ¬ n.Lists x (addr 2) common) = true := by
      decide
    obtain ⟨n, hr, hn⟩ := exists_run_of_execute h
    obtain ⟨hq, hok, hno⟩ := of_decide_eq_true hn
    rcases (hall gathered gathered_ok _ n hr (Net.not_overrun_of_isRunning hok) hq 0 2).cases_tail
      with he | ⟨x, -, hx⟩
    · cases he
    · exact hno x hx
  have htwice : ¬ ∀ n₀, Gathered triangle n₀ →
      n₀.StaysConnected triangle fun n a => n.saysToCommon a ∧ n.inTurn a := by
    intro hall
    have h : (execute (Net.step addr) (fun n a => n.saysToCommon a ∧ n.inTurn a) gathered
        sayTwice).any (fun n => n.flight = [] ∧ (∀ i, (n.node i).isRunning) ∧
          ∀ x, ¬ n.Lists 0 (addr x) common) = true := by
      decide
    obtain ⟨n, hr, hn⟩ := exists_run_of_execute h
    obtain ⟨hq, hok, hno⟩ := of_decide_eq_true hn
    rcases (hall gathered gathered_ok _ n hr (Net.not_overrun_of_isRunning hok) hq 0 2).cases_head
      with he | ⟨x, hx, -⟩
    · cases he
    · exact hno x hx
  refine ⟨fun hall => hcross fun n₀ h acts n hr => ?_, hcross, htwice⟩
  exact hall n₀ h acts n (hr.mono fun _ _ ha => ha.1)

end DuckChat
