import DuckChat.Trees
import DuckChat.Sound

/-!
# One say reaches everybody on a tree, once

A say starts on a tree in which every server lists the channel for all its neighbours. While it
spreads, servers with nobody to forward to answer with leaves, and the tables change under the
flood. But a leave goes to a server that has handled the say already, and the one that sends it is a
leaf without users: what a server looks at when the say arrives is still what it was at the start.

## Main definitions

* `Subscribed` — the states in which the say starts
* `Net.textsFrom` — the texts that a server has sent
* `Passes` — what a server does with the say
* `Spread` — the invariant

## Main results

* `Subscribed.passes` — every server passes the say on to all its children
* `Spread.start`, `Spread.deliver`
* `say_delivered_once`
-/

set_option autoImplicit false

namespace DuckChat

variable {ι : Type}

/-- Every server holds exactly one channel with the name, with entries that can be read, lists it
for all its neighbours, and has room for the identifier, which it has not recorded. -/
structure Subscribed (T : Topology ι) (s : ι → ServerState) (c : Name) (id : Id) : Prop where
  neighbours : ∀ i, (s i).neighbours = T.nbrAddrs i
  channel : ∀ i, (s i).names.count c = 1
  entries : ∀ i, ∀ e ∈ (s i).usersOf c, Readable (s i).heap e
  listed : ∀ i, ∀ j ∈ T.nbrs i, c ∈ (s i).subsOf (T.addr j)
  fresh : ∀ i, id ∉ (s i).recentIds.slots ∧ (s i).recentIds.numIds < MAX_IDS

/-- The texts that a server has sent, the latest step first. -/
def Net.textsFrom [DecidableEq ι] (n : Net ι) (i : ι) : List Datagram :=
  n.log.flatMap fun e => if e.server = i then e.sent.filter Datagram.isText else []

/-! ### One server -/

section OneServer

variable {s : ServerState} {a b : Sockaddr} {c : Name}

theorem filter_isText_textsTo (es : List (Option User)) (name : Username) (t : SayText) :
    (textsTo es (.say c name t)).filter Datagram.isText = textsTo es (.say c name t) := by
  refine List.filter_eq_self.mpr fun d hd => ?_
  obtain ⟨e, -, he⟩ := List.mem_filterMap.mp hd
  obtain ⟨u, -, rfl⟩ := Option.map_eq_some_iff.mp he
  rfl

theorem filter_isText_map {α : Type} (l : List α) (f : α → Sockaddr) (m : S2S) :
    (l.map fun x => (⟨f x, .s2s m⟩ : Datagram)).filter Datagram.isText = [] := by
  refine List.filter_eq_nil_iff.mpr fun d hd => ?_
  obtain ⟨x, -, rfl⟩ := List.mem_map.mp hd
  exact Bool.false_ne_true

/-- A text for every entry and a packet for some neighbours: the texts of the step. -/
theorem filter_isText_out {α : Type} (es : List (Option User)) (c : Name) (name : Username)
    (t : SayText) (l : List α) (f : α → Sockaddr) (x : S2S) :
    (textsTo es (.say c name t) ++ l.map fun y => (⟨f y, .s2s x⟩ : Datagram)).filter
        Datagram.isText =
      textsTo es (.say c name t) := by
  rw [List.filter_append, filter_isText_textsTo, filter_isText_map, List.append_nil]

theorem s2s_not_mem_textsTo {es : List (Option User)} {t : Text} {m : S2S} :
    (⟨b, .s2s m⟩ : Datagram) ∉ textsTo es t := by
  intro h
  obtain ⟨e, -, he⟩ := List.mem_filterMap.mp h
  obtain ⟨u, -, he⟩ := Option.map_eq_some_iff.mp he
  cases congrArg Datagram.payload he

/-- Two neighbours that list a channel count twice. -/
theorem two_le_hasChannelServers (hab : a ≠ b) (ha : c ∈ s.subsOf a)
    (hb : c ∈ s.subsOf b) : 2 ≤ hasChannelServers s.cnnctSrvrs c := by
  have hrec : ∀ x, c ∈ s.subsOf x → ∃ srvr ∈ s.cnnctSrvrs, srvr.addr = x ∧ c ∈ srvr.subs := by
    intro x hx
    obtain ⟨srvr, hs⟩ := Option.isSome_iff_exists.mp
      (isSome_findServerAddress_iff.mpr (mem_neighbours_of_mem_subsOf hx))
    rw [subsOf_eq hs] at hx
    exact ⟨srvr, (findServerAddress_some hs).1, (findServerAddress_some hs).2, hx⟩
  obtain ⟨x, hx, hxa, hxc⟩ := hrec a ha
  obtain ⟨y, hy, hyb, hyc⟩ := hrec b hb
  have hne : x ≠ y := by
    rintro rfl
    exact hab (hxa.symm.trans hyb)
  have hsub : [x, y] ⊆ s.cnnctSrvrs.filter fun srvr => hasChannelServer srvr c := by
    intro z hz
    rcases List.mem_cons.mp hz with rfl | hz
    · exact List.mem_filter.mpr ⟨hx, hasChannelServer_iff.mpr hxc⟩
    · rw [List.mem_singleton.mp hz]
      exact List.mem_filter.mpr ⟨hy, hasChannelServer_iff.mpr hyc⟩
  have hnd' : [x, y].Nodup := by simp [hne]
  rw [hasChannelServers, List.countP_eq_length_filter]
  exact (hnd'.subperm hsub).length_le

/-- The channel that a server holds, with its entries. -/
theorem findChannel_of_mem_names (h : c ∈ s.names) :
    ∃ chnl, findChannel s.channels c = some chnl ∧ s.usersOf c = chnl.entries := by
  obtain ⟨chnl, hf⟩ := Option.isSome_iff_exists.mp (isSome_findChannel_iff.mpr h)
  exact ⟨chnl, hf, by rw [ServerState.usersOf, hf]⟩

end OneServer

/-! ### The network -/

theorem Net.copies_take_of_not [DecidableEq ι] {T : Topology ι} {n : Net ι} {p : Packet} {id : Id}
    {u v : ι} (h : Net.isCopy T id u v p = false) :
    (n.take p).copies T id u v = n.copies T id u v := by
  by_cases hp : p ∈ n.flight
  · rw [Net.copies, Net.copies, (List.perm_cons_erase hp).countP_eq,
      List.countP_cons_of_neg (by simp [h])]
    rfl
  · rw [Net.take, List.erase_of_not_mem hp]

/-- While the say spreads. `m` is the packet that the servers pass on, and `o` where it started. -/
structure Spread [DecidableEq ι] (T : Topology ι) (s : ι → ServerState) (m : SayS2S) (o : ι)
    (n : Net ι) : Prop where
  /-- A server that the say has not reached is as it was. -/
  unhandled : ∀ v, ¬ n.Handled v m.id → n.node v = .running (s v)
  /-- Copies of the say are in flight, and leaves to servers that have handled it. -/
  flight : ∀ q ∈ n.flight, ∃ u v, v ∈ T.nbrs u ∧ q.src = T.addr u ∧ q.dst = T.addr v ∧
    (q.msg = .say m ∨ (q.msg = .leave m.reqChannel ∧ n.Handled v m.id))
  flood : Flood T.graph o (fun v => n.Handled v m.id) (n.copies T m.id)
  covers : Covers T.graph o (fun v => n.Handled v m.id) (n.copies T m.id)
  origin : n.Handled o m.id
  texts : ∀ v, n.Handled v m.id → ∃ name,
    n.textsFrom v = textsTo ((s v).usersOf m.reqChannel) (.say m.reqChannel name m.reqText)
  silent : ∀ v, ¬ n.Handled v m.id → n.textsFrom v = []

section OneStep

variable {T : Topology ι} {s : ι → ServerState} {c : Name} {m : SayS2S}

/-- A packet that a server sends is a copy on its link. -/
theorem pos_countP_of_mem {out : List Datagram} {v : ι}
    (h : (⟨T.addr v, .s2s (.say m)⟩ : Datagram) ∈ out) :
    0 < out.countP fun d => d.dest = T.addr v ∧ d.isSay m.id :=
  List.countP_pos_iff.mpr ⟨_, h, decide_eq_true ⟨rfl, Datagram.isSay_iff.mpr ⟨m, rfl, rfl⟩⟩⟩

/-- What the say meets at a server that it has not reached. -/
theorem Subscribed.ready (hs : Subscribed T s c m.id) (i : ι) :
    hasId (s i).recentIds m.id = .ok false ∧
      (∃ ids, (s i).recentIds.record m.id = .ok ids) ∧
      ∃ chnl, findChannel (s i).channels c = some chnl ∧ (s i).usersOf c = chnl.entries ∧
        ∀ e ∈ chnl.entries, Readable (s i).heap e := by
  obtain ⟨hslots, hlt⟩ := hs.fresh i
  obtain ⟨ids, hids, -⟩ := RecentIds.record_of_lt m.id hlt
  have hmem : c ∈ (s i).names := List.count_pos_iff.mp (by rw [hs.channel i]; exact Nat.one_pos)
  obtain ⟨chnl, hf, he⟩ := findChannel_of_mem_names hmem
  refine ⟨hasId_eq_ok_false.mpr ?_, ⟨ids, hids⟩, chnl, hf, he, ?_⟩
  · rintro (h | h)
    · exact hslots h
    · omega
  · rw [← he]
    exact hs.entries i

theorem Subscribed.nodup (hs : Subscribed T s c m.id) (i : ι) : (s i).neighbours.Nodup := by
  rw [hs.neighbours i]
  exact (T.nodup i).map T.addr.injective

/-- Whatever a server sends to an address that it lists goes to a neighbour. -/
theorem Subscribed.exists_of_subsOf (hs : Subscribed T s c m.id) {i : ι} {b : Sockaddr}
    (hb : c ∈ (s i).subsOf b) : ∃ v ∈ T.nbrs i, T.addr v = b := by
  have hbn := mem_neighbours_of_mem_subsOf hb
  rw [hs.neighbours i] at hbn
  exact List.mem_map.mp hbn

/-- What server `v` sends when it gets the say `m` from `u`, in a flood from `o`. -/
structure Passes (T : Topology ι) (o u v : ι) (es : List (Option User)) (m : SayS2S)
    (out : List Datagram) : Prop where
  texts : out.filter Datagram.isText = textsTo es (.say m.reqChannel m.reqUsername m.reqText)
  /-- The say goes to neighbours; a leave goes back. -/
  packets : ∀ q ∈ packets (T.addr v) out, ∃ w ∈ T.nbrs v, q.dst = T.addr w ∧
    (q.msg = .say m ∨ (q.msg = .leave m.reqChannel ∧ w = u))
  children : ∀ y, Parent T.graph o v y → (⟨T.addr y, .s2s (.say m)⟩ : Datagram) ∈ out

/-- A server that has nobody to forward to is a leaf. -/
theorem Subscribed.not_parent (hT : T.IsTree) (hs : Subscribed T s c m.id) {o u v y : ι}
    (hv : v ∈ T.nbrs u) (hpar : Parent T.graph o u v)
    (hle : hasChannelServers (s v).cnnctSrvrs c ≤ 1) : ¬ Parent T.graph o v y := by
  intro hy
  have hne : T.addr u ≠ T.addr y := fun he => hpar.ne_child hy (T.addr.injective he)
  have htwo := two_le_hasChannelServers hne (hs.listed v u (T.symm u v hv))
    (hs.listed v y (hT.adj_iff.mp hy.1))
  omega

/-- **Whichever branch it takes**, a server passes the say on to all its children. -/
theorem Subscribed.passes (hT : T.IsTree) (hs : Subscribed T s m.reqChannel m.id) {o u v : ι}
    (hv : v ∈ T.nbrs u) (hpar : Parent T.graph o u v) :
    Passes T o u v ((s v).usersOf m.reqChannel) m (reqServSay (s v) (T.addr u) m).out := by
  obtain ⟨hid, ⟨ids, hids⟩, chnl, hf, hent, hread⟩ := hs.ready v
  rw [reqServSay_eq hid hids hf hread, hent]
  split
  · next hk =>
    refine ⟨?_, fun q hq => ?_, fun y hy => absurd hy (hs.not_parent hT hv hpar hk.2)⟩
    · rw [entries_eq_nil hk.1]
      rfl
    · obtain ⟨-, hd⟩ := mem_packets.mp hq
      injection List.mem_singleton.mp hd with hdst hm
      injection hm with hm
      exact ⟨u, T.symm u v hv, hdst, Or.inr ⟨hm, rfl⟩⟩
  · refine ⟨?_, fun q hq => ?_, fun y hy => ?_⟩
    · rw [forwardPackets, filter_isText_out]
    · obtain ⟨-, hd⟩ := mem_packets.mp hq
      have hd := (List.mem_append.mp hd).resolve_left s2s_not_mem_textsTo
      obtain ⟨b, -, hb, he⟩ := (mem_forwardPackets (hs.nodup v)).mp hd
      obtain ⟨w, hw, rfl⟩ := hs.exists_of_subsOf hb
      injection he with hdst hm
      injection hm with hm
      exact ⟨w, hw, hdst, Or.inl hm⟩
    · exact List.mem_append_right _ ((mem_forwardPackets (hs.nodup v)).mpr
        ⟨_, fun he => hpar.ne_child hy (T.addr.injective he).symm,
          hs.listed v y (hT.adj_iff.mp hy.1), rfl⟩)

end OneStep

section Steps

variable [DecidableEq ι] {T : Topology ι} {s : ι → ServerState} {n n' : Net ι} {i o : ι}
  {m : SayS2S}

theorem textsFrom_cons {e : Event ι} (h : n'.log = e :: n.log) (v : ι) :
    n'.textsFrom v =
      (if e.server = v then e.sent.filter Datagram.isText else []) ++ n.textsFrom v := by
  rw [Net.textsFrom, h, List.flatMap_cons, Net.textsFrom]

/-- **The say of a member starts the flood.** -/
theorem Spread.start {c : Name} {id : Id} {a : Sockaddr} {u : User} (t : SayText) (now : ℤ)
    (hT : T.IsTree) (hs : Subscribed T s c id) (hnode : ∀ i, n.node i = .running (s i))
    (hflight : n.flight = []) (hlog : n.log = []) (hu : some u ∈ (s o).usersOf c)
    (ha : u.address = a) :
    ∃ m : SayS2S, m.id = id ∧ m.reqChannel = c ∧ m.reqText = t ∧
      Spread T s m o (n.act T.addr o (.datagram a (.client (.say c t)) id now)) := by
  obtain ⟨-, ⟨ids, hids⟩, chnl, hf, hent, hread⟩ := hs.ready (m := ⟨id, u.username, c, t⟩) o
  rw [hent] at hu
  obtain ⟨name, usr, -, hreq⟩ := reqSay_eq (t := t) hf hread hu ha hids
  refine ⟨s2sFillSay c usr.username t id, rfl, rfl, rfl, ?_⟩
  generalize hm : s2sFillSay c usr.username t id = m at hreq
  obtain rfl : m.reqChannel = c := by rw [← hm]; rfl
  obtain rfl : m.reqText = t := by rw [← hm]; rfl
  obtain rfl : m.id = id := by rw [← hm]; rfl
  generalize hinp : Input.datagram a (.client (.say m.reqChannel m.reqText)) m.id now = inp
  have hout : (react (s o) inp).out =
      textsTo ((s o).usersOf m.reqChannel) (.say m.reqChannel name m.reqText) ++
        sayPackets (s o) m := by
    have hreact : react (s o) inp = reqSay (s o) a m.reqChannel m.reqText m.id := by
      rw [← hinp]
      rfl
    rw [hreact, hreq, hent]
  have hj : ∀ j, j ≠ o → (n.act T.addr o inp).node j = n.node j := fun j => Net.node_act_of_ne
  have hact : Reacts T n n (n.act T.addr o inp) o inp (s o) :=
    Reacts.of_act _ (hnode o) (hs.neighbours o) rfl rfl
  generalize n.act T.addr o inp = n' at hj hact ⊢
  have hno : ∀ v, ¬ n.Handled v m.id := by
    rintro v ⟨e, he, -⟩
    rw [hlog] at he
    cases he
  have hzero : ∀ u v, n.copies T m.id u v = 0 := fun u v => by rw [Net.copies, hflight]; rfl
  have hhandled : ∀ v, n'.Handled v m.id ↔ v = o := by
    intro v
    rw [hact.handled_iff, or_iff_right (hno v), ← hinp]
    exact and_iff_left rfl
  have htexts : ∀ v, n'.textsFrom v = if o = v then
      textsTo ((s o).usersOf m.reqChannel) (.say m.reqChannel name m.reqText) else [] := by
    intro v
    have hnil : n.textsFrom v = [] := by rw [Net.textsFrom, hlog]; rfl
    rw [textsFrom_cons hact.log, hnil, List.append_nil, hout, sayPackets, filter_isText_out]
  exact
    { unhandled := fun v hv => by
        rw [hj v (mt (hhandled v).mpr hv)]
        exact hnode v
      flight := fun q hq => by
        rw [hact.flight, hflight, List.nil_append] at hq
        obtain ⟨hsrc, hd⟩ := mem_packets.mp hq
        rw [hout] at hd
        have hd := (List.mem_append.mp hd).resolve_left s2s_not_mem_textsTo
        obtain ⟨b, hb, he⟩ := (mem_sayPackets (hs.nodup o)).mp hd
        obtain ⟨v, hv, rfl⟩ := hs.exists_of_subsOf hb
        injection he with hdst hmsg
        injection hmsg with hmsg
        exact ⟨o, v, hv, hsrc, hdst, Or.inl hmsg⟩
      flood := hact.flood_start hT (by rw [← hinp]; rfl) hno hzero
      covers := fun u v hu hp => by
        obtain rfl := (hhandled u).mp hu
        refine Or.inr ?_
        rw [hact.copies_self, hzero, Nat.zero_add]
        refine pos_countP_of_mem ?_
        rw [hout]
        exact List.mem_append_right _ ((mem_sayPackets (hs.nodup u)).mpr
          ⟨_, hs.listed u v (hT.adj_iff.mp hp.1), rfl⟩)
      origin := (hhandled o).mpr rfl
      texts := fun v hv => by
        obtain rfl := (hhandled v).mp hv
        exact ⟨name, by rw [htexts, if_pos rfl]⟩
      silent := fun v hv => by
        rw [htexts, if_neg (Ne.symm (mt (hhandled v).mpr hv))] }

/-- A copy of the say is delivered. -/
theorem Spread.deliverSay (hT : T.IsTree) (hs : Subscribed T s m.reqChannel m.id)
    (h : Spread T s m o n) {u v : ι} {p : Packet} {now : ℤ} (hp : p ∈ n.flight)
    (hv : v ∈ T.nbrs u) (hsrc : p.src = T.addr u) (hdst : p.dst = T.addr v)
    (hmsg : p.msg = .say m) :
    Spread T s m o ((n.take p).act T.addr v (.datagram p.src (.s2s p.msg) 0 now)) := by
  have hcopy : Net.isCopy T m.id u v p = true := decide_eq_true ⟨hsrc, hdst, by rw [hmsg]; rfl⟩
  obtain ⟨hpar, hhu, hnv⟩ := h.flood.edge u v (List.countP_pos_iff.mpr ⟨p, hp, hcopy⟩)
  have hnode : n.node v = .running (s v) := h.unhandled v hnv
  generalize hsay : Input.datagram p.src (.s2s p.msg) 0 now = inp
  rw [hsrc, hmsg] at hsay
  have hpass : Passes T o u v ((s v).usersOf m.reqChannel) m (react (s v) inp).out := by
    rw [← hsay]
    exact hs.passes hT hv hpar
  have hj : ∀ j, j ≠ v → ((n.take p).act T.addr v inp).node j = n.node j := fun j =>
    Net.node_act_of_ne
  have hact : Reacts T n (n.take p) ((n.take p).act T.addr v inp) v inp (s v) :=
    Reacts.of_act _ hnode (hs.neighbours v) rfl rfl
  generalize (n.take p).act T.addr v inp = n' at hj hact ⊢
  have hhandled : ∀ x, n'.Handled x m.id ↔ n.Handled x m.id ∨ x = v := by
    intro x
    rw [hact.handled_iff, ← hsay]
    exact or_congr_right (and_iff_left rfl)
  have hcount : n.copies T m.id u v = (n.take p).copies T m.id u v + 1 := by
    rw [Net.copies, (List.perm_cons_erase hp).countP_eq, List.countP_cons_of_pos hcopy]
    rfl
  exact
    { unhandled := fun x hx => by
        rw [hhandled, not_or] at hx
        rw [hj x hx.2]
        exact h.unhandled x hx.1
      flight := fun q hq => by
        rw [hact.flight] at hq
        rcases List.mem_append.mp hq with hq | hq
        · obtain ⟨x, y, hy, hqs, hqd, hm⟩ := h.flight q (List.mem_of_mem_erase hq)
          exact ⟨x, y, hy, hqs, hqd,
            hm.imp_right fun hm => ⟨hm.1, (hhandled y).mpr (Or.inl hm.2)⟩⟩
        · obtain ⟨w, hw, hqd, hm⟩ := hpass.packets q hq
          refine ⟨v, w, hw, (mem_packets.mp hq).1, hqd, hm.imp_right ?_⟩
          rintro ⟨hleave, rfl⟩
          exact ⟨hleave, (hhandled w).mpr (Or.inl hhu)⟩
      flood := hact.flood_deliver hT hsay.symm h.flood rfl hv
        (fun x y => List.Sublist.countP_le List.erase_sublist) (by omega)
      covers := by
        refine h.covers.deliver hhandled (fun y hy => ?_) fun x y hx hy => ?_
        · rw [hact.copies_self]
          exact Nat.add_pos_right _ (pos_countP_of_mem (hpass.children y hy))
        · rw [hact.copies_of_ne _ _ hx, Net.copies_take_of_not]
          exact decide_eq_false fun hc => hy (T.addr.injective (hc.2.1.symm.trans hdst))
      origin := (hhandled o).mpr (Or.inl h.origin)
      texts := fun x hx => by
        rw [textsFrom_cons hact.log]
        by_cases hxv : x = v
        · subst hxv
          refine ⟨m.reqUsername, ?_⟩
          rw [if_pos rfl, hpass.texts, h.silent x hnv, List.append_nil]
        · obtain ⟨name, hname⟩ := h.texts x (((hhandled x).mp hx).resolve_right hxv)
          exact ⟨name, by rw [if_neg (Ne.symm hxv), List.nil_append, hname]⟩
      silent := fun x hx => by
        rw [hhandled, not_or] at hx
        rw [textsFrom_cons hact.log, if_neg (Ne.symm hx.2), List.nil_append]
        exact h.silent x hx.1 }

/-- Nothing of the flood changes when a packet that is no copy is taken in silence by a server that
has handled the say. -/
theorem Spread.congr (h : Spread T s m o n)
    (hnode : ∀ x, ¬ n.Handled x m.id → n'.node x = n.node x)
    (hflight : ∀ q ∈ n'.flight, q ∈ n.flight) (hcopies : n'.copies T m.id = n.copies T m.id)
    (hhandled : ∀ x, n'.Handled x m.id ↔ n.Handled x m.id)
    (htexts : ∀ x, n'.textsFrom x = n.textsFrom x) : Spread T s m o n' := by
  have hreach : (fun x => n'.Handled x m.id) = fun x => n.Handled x m.id := by
    funext x
    exact propext (hhandled x)
  refine ⟨fun x hx => ?_, fun q hq => ?_, ?_, ?_, (hhandled o).mpr h.origin, fun x hx => ?_,
    fun x hx => ?_⟩
  · rw [hhandled] at hx
    rw [hnode x hx]
    exact h.unhandled x hx
  · obtain ⟨x, y, hy, hqs, hqd, hm⟩ := h.flight q (hflight q hq)
    exact ⟨x, y, hy, hqs, hqd, hm.imp_right fun hm => ⟨hm.1, (hhandled y).mpr hm.2⟩⟩
  · rw [hreach, hcopies]
    exact h.flood
  · rw [hreach, hcopies]
    exact h.covers
  · rw [htexts]
    exact h.texts x ((hhandled x).mp hx)
  · rw [hhandled] at hx
    rw [htexts]
    exact h.silent x hx

/-- A leave is delivered, at a server that has handled the say. -/
theorem Spread.deliverLeave (h : Spread T s m o n) {v : ι} {p : Packet} {now : ℤ}
    (hmsg : p.msg = .leave m.reqChannel) (hhv : n.Handled v m.id) :
    Spread T s m o ((n.take p).act T.addr v (.datagram p.src (.s2s p.msg) 0 now)) := by
  have hcopies : (n.take p).copies T m.id = n.copies T m.id := by
    funext x y
    refine Net.copies_take_of_not (decide_eq_false fun hc => ?_)
    rw [hmsg] at hc
    cases hc.2.2
  generalize hleave : Input.datagram p.src (.s2s p.msg) 0 now = inp
  rw [hmsg] at hleave
  rcases (n.take p).act_cases T.addr v inp with ⟨f, -, ha⟩ | ⟨s₀, -, -, hj, hfl, hl⟩
  · rw [ha]
    exact h.congr (fun _ _ => rfl) (fun q hq => List.mem_of_mem_erase hq) hcopies
      (fun _ => Iff.rfl) fun _ => rfl
  have hout : (react s₀ inp).out = [] := by
    rw [← hleave]
    exact (reqServLeave_cases s₀ p.src m.reqChannel).1
  generalize (n.take p).act T.addr v inp = n' at hj hfl hl ⊢
  rw [hout, packets_nil, List.append_nil] at hfl
  refine h.congr (fun x hx => hj x ?_) (fun q hq => ?_) ?_ (fun x => ?_) fun x => ?_
  · rintro rfl
    exact hx hhv
  · rw [hfl] at hq
    exact List.mem_of_mem_erase hq
  · rw [← hcopies]
    funext x y
    rw [Net.copies, hfl, Net.copies]
  · have hnone : (⟨v, inp, (react s₀ inp).out⟩ : Event ι).sayId = none := by
      rw [← hleave]
      rfl
    simp only [Net.Handled, hl, List.exists_mem_cons_iff, hnone, reduceCtorEq, and_false,
      false_or]
    rfl
  · rw [textsFrom_cons hl, hout]
    simp only [List.filter_nil, ite_self, List.nil_append]
    rfl

/-- **A delivery goes on with it.** -/
theorem Spread.deliver (hT : T.IsTree) (hs : Subscribed T s m.reqChannel m.id)
    (h : Spread T s m o n) {p : Packet} {now : ℤ}
    (hst : Net.step T.addr n (.deliver i p now) = some n') : Spread T s m o n' := by
  simp only [Net.step] at hst
  split at hst
  case isFalse => cases hst
  next hp =>
  cases hst
  obtain ⟨u, v, hv, hsrc, hdst, hmsg⟩ := h.flight p hp.1
  obtain rfl : v = i := T.addr.injective (hdst.symm.trans hp.2)
  rcases hmsg with hmsg | ⟨hmsg, hhv⟩
  · exact h.deliverSay hT hs hp.1 hv hsrc hdst hmsg
  · exact h.deliverLeave hmsg hhv

end Steps

/-- **Exactly once.** On a tree whose servers are all subscribed, with nothing in flight, a member
says something under a new identifier. In whatever order the packets that follow are delivered,
once none is left every server has sent one text to each user in the channel, and no other. -/
theorem say_delivered_once [DecidableEq ι] (T : Topology ι) (hT : T.IsTree)
    (s : ι → ServerState) (c : Name) (t : SayText) (id : Id) (o : ι) (u : User) (now : ℤ)
    (n₀ n₁ n : Net ι) (acts : List (Action ι)) (hs : Subscribed T s c id)
    (hnode : ∀ i, n₀.node i = .running (s i)) (hflight : n₀.flight = []) (hlog : n₀.log = [])
    (hu : some u ∈ (s o).usersOf c)
    (hsay : Net.step T.addr n₀ (.client o u.address (.say c t) id now) = some n₁)
    (hrun : Run (Net.step T.addr) (fun _ a => a.isDelivery) n₁ acts n) (hdone : n.flight = []) :
    ∀ i, ∃ (name : Username) (us : List User), (s i).usersOf c = us.map some ∧
      n.textsFrom i = us.map fun u => ⟨u.address, .text (.say c name t)⟩ := by
  cases hsay
  obtain ⟨m, rfl, rfl, rfl, hstart⟩ := Spread.start t now hT hs hnode hflight hlog hu rfl
  have hspread : Spread T s m o n := by
    refine hrun.invariant (P := Spread T s m o) (fun x a y hx ha hst => ?_) hstart
    cases a with
    | deliver i p now => exact hx.deliver hT hs hst
    | client i a rq drawn now => cases ha
    | timeouts i now => cases ha
    | renewal i now => cases ha
    | lose p => cases ha
    | duplicate p => cases ha
  have hzero : ∀ x y, n.copies T m.id x y = 0 := fun x y => by rw [Net.copies, hdone]; rfl
  intro i
  obtain ⟨name, hname⟩ := hspread.texts i
    (hspread.covers.all_reached hT.tree hspread.origin hzero i)
  obtain ⟨us, hus⟩ : ∃ us : List User, (s i).usersOf m.reqChannel = us.map some := by
    have hread := hs.entries i
    generalize (s i).usersOf m.reqChannel = es at hread
    induction es with
    | nil => exact ⟨[], rfl⟩
    | cons e es ih =>
      obtain ⟨x, -, rfl⟩ := hread e List.mem_cons_self
      obtain ⟨us, hus⟩ := ih fun e he => hread e (List.mem_cons_of_mem _ he)
      exact ⟨x :: us, by rw [hus, List.map_cons]⟩
  refine ⟨name, us, hus, ?_⟩
  rw [hname, hus, textsTo, List.filterMap_map]
  simp

namespace Three

/-- Server 2 has no users. -/
def withoutLast (i : Fin 3) : ServerState :=
  if i = 2 then ServerState.start (line.nbrAddrs 2) 0 0 else withUser i

theorem subscribed_withoutLast : Subscribed line withoutLast common 1 where
  neighbours := by decide
  channel := by decide
  entries := by decide
  listed := by decide
  fresh := by decide

/-- The client of server 0 says something. -/
def saying : Net (Fin 3) :=
  Net.act addr ⟨fun i => .running (withoutLast i), [], []⟩ 0
    (.datagram (client 0) (.client (.say common hello)) 1 0)

end Three

open Three in
/-- The last server of the line answers with a leave. -/
theorem say_delivered_once_on_line :
    ∃ n, Run (Net.step addr) (fun _ a => a.isDelivery) saying
        [deliver 0 1 (sayBy 0 common 1), deliver 1 2 (sayBy 0 common 1),
          deliver 2 1 (.leave common)] n ∧
      ∃ (name : Username) (us : List User), (withoutLast 1).usersOf common = us.map some ∧
        n.textsFrom 1 = us.map fun u => ⟨u.address, .text (.say common name hello)⟩ := by
  have h : (execute (Net.step addr) (fun _ a => a.isDelivery) saying
      [deliver 0 1 (sayBy 0 common 1), deliver 1 2 (sayBy 0 common 1),
        deliver 2 1 (.leave common)]).any (fun n => n.flight = []) = true := by decide
  obtain ⟨n, hr, hn⟩ := exists_run_of_execute h
  exact ⟨n, hr, say_delivered_once line line_isTree withoutLast common hello 1 0
    (user 0) 0 _ _ n _ subscribed_withoutLast (fun _ => rfl) rfl rfl (by decide) rfl
    hr (of_decide_eq_true hn) 1⟩

end DuckChat
