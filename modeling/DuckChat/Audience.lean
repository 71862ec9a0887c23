import DuckChat.Delivery
import DuckChat.Forwarding
import DuckChat.Pruning

/-!
# The audience of a say on a pruned tree

After the first says on a tree most tables have been pruned: a server lists a channel only for those
neighbours behind which somebody was when the last leaves were sent. What a run leaves of the tables
is enough, as long as it keeps the paths: with nothing in flight, a server with a member of the
channel, or with another neighbour subscribed behind it, is listed by its neighbours.

So every server between the speaker and a member lists the channel both ways. It has two subscribed
neighbours, and does not take the say for one that nobody wants. Elsewhere the say may be dropped.

## Main definitions

* `Wired` — the states in which the say starts
* `Relays` — what a server does with the say
* `Airing` — the invariant

## Main results

* `Wired.lists_parent`, `Wired.lists_child` — both ways on the way to a member
* `Wired.relays` — the say is passed on towards every member
* `Airing.start`, `Airing.deliver`
* `members_hear` — every member gets the say once
-/

set_option autoImplicit false

namespace DuckChat

variable {ι : Type}

/-- A server with a member of the channel, or with another neighbour that is listed for it, is
listed. What is listed is held, entries can be read, and the identifier is new. -/
structure Wired (T : Topology ι) (s : ι → ServerState) (c : Name) (id : Id) : Prop where
  neighbours : ∀ i, (s i).neighbours = T.nbrAddrs i
  entries : ∀ i, ∀ e ∈ (s i).usersOf c, Readable (s i).heap e
  held : ∀ u, ∀ v ∈ T.nbrs u, c ∈ (s u).subsOf (T.addr v) → c ∈ (s v).names
  upward : ∀ z, ∀ u ∈ T.nbrs z,
    (s z).usersOf c ≠ [] ∨ (∃ y ∈ T.nbrs z, y ≠ u ∧ c ∈ (s z).subsOf (T.addr y)) →
      c ∈ (s u).subsOf (T.addr z)
  fresh : ∀ i, id ∉ (s i).recentIds.slots ∧ (s i).recentIds.numIds < MAX_IDS

/-- The servers with members. -/
def Attended (s : ι → ServerState) (c : Name) (i : ι) : Prop := (s i).usersOf c ≠ []

section Wired

variable {T : Topology ι} {s : ι → ServerState} {c : Name} {id : Id} {m : SayS2S} {o u v y : ι}

theorem Wired.nodup (hs : Wired T s c id) (i : ι) : (s i).neighbours.Nodup := by
  rw [hs.neighbours i]
  exact (T.nodup i).map T.addr.injective

/-- Whatever a server sends to an address that it lists goes to a neighbour. -/
theorem Wired.exists_of_subsOf (hs : Wired T s c id) {i : ι} {b : Sockaddr}
    (hb : c ∈ (s i).subsOf b) : ∃ v ∈ T.nbrs i, T.addr v = b := by
  have hbn := mem_neighbours_of_mem_subsOf hb
  rw [hs.neighbours i] at hbn
  exact List.mem_map.mp hbn

/-- **Back to the speaker.** Every server lists the channel for the neighbour on the way to a
member. -/
theorem Wired.lists_parent (hT : T.IsTree) (hs : Wired T s c id) (ho : Attended s c o)
    (hpar : Parent T.graph o u v) : c ∈ (s v).subsOf (T.addr u) := by
  refine parent_induction (o := o)
    (P := fun u => ∀ v, Parent T.graph o u v → c ∈ (s v).subsOf (T.addr u)) hT.tree
    (fun v hpar => ?_) (fun w u hw hwu v hpar => ?_) u v hpar
  · exact hs.upward o v (hT.adj_iff.mp hpar.1) (Or.inl ho)
  · exact hs.upward u v (hT.adj_iff.mp hpar.1)
      (Or.inr ⟨w, T.symm w u (hT.adj_iff.mp hwu.1), hwu.ne_child hpar, hw u hwu⟩)

/-- **Towards a member** as well. -/
theorem Wired.lists_child (hT : T.IsTree) (hs : Wired T s c id) (hpar : Parent T.graph o u v)
    (hv : Above T.graph o (Attended s c) v) : c ∈ (s u).subsOf (T.addr v) := by
  induction hv generalizing u with
  | here hv => exact hs.upward _ u (T.symm u _ (hT.adj_iff.mp hpar.1)) (Or.inl hv)
  | @child v w hw _ ih =>
    exact hs.upward v u (T.symm u v (hT.adj_iff.mp hpar.1))
      (Or.inr ⟨w, hT.adj_iff.mp hw.1, (hpar.ne_child hw).symm, ih hw⟩)

/-- What the say meets at a server that it has not reached. -/
theorem Wired.ready (hs : Wired T s c id) {i : ι} (hc : c ∈ (s i).names) :
    hasId (s i).recentIds id = .ok false ∧ (∃ ids, (s i).recentIds.record id = .ok ids) ∧
      ∃ chnl, findChannel (s i).channels c = some chnl ∧ (s i).usersOf c = chnl.entries ∧
        ∀ e ∈ chnl.entries, Readable (s i).heap e := by
  obtain ⟨hslots, hlt⟩ := hs.fresh i
  obtain ⟨ids, hids, -⟩ := RecentIds.record_of_lt id hlt
  obtain ⟨chnl, hf, he⟩ := findChannel_of_mem_names hc
  refine ⟨hasId_eq_ok_false.mpr ?_, ⟨ids, hids⟩, chnl, hf, he, ?_⟩
  · rintro (h | h)
    · exact hslots h
    · omega
  · rw [← he]
    exact hs.entries i

/-- A server that has nobody to forward to is not on the way to a member. -/
theorem Wired.not_above (hT : T.IsTree) (hs : Wired T s c id) (ho : Attended s c o)
    (hpar : Parent T.graph o u v) (hle : hasChannelServers (s v).cnnctSrvrs c ≤ 1)
    (hy : Parent T.graph o v y) : ¬ Above T.graph o (Attended s c) y := by
  intro habove
  have hne : T.addr u ≠ T.addr y := fun he => hpar.ne_child hy (T.addr.injective he)
  have htwo := two_le_hasChannelServers hne (hs.lists_parent hT ho hpar)
    (hs.lists_child hT hy habove)
  omega

/-- What server `v` sends when it gets the say `m` from `u`, in a flood from `o`. -/
structure Relays (T : Topology ι) (s : ι → ServerState) (o u v : ι) (m : SayS2S)
    (out : List Datagram) : Prop where
  texts : out.filter Datagram.isText =
    textsTo ((s v).usersOf m.reqChannel) (.say m.reqChannel m.reqUsername m.reqText)
  /-- The say goes to neighbours that hold the channel; a leave goes back. -/
  packets : ∀ q ∈ packets (T.addr v) out, ∃ w ∈ T.nbrs v, q.dst = T.addr w ∧
    (q.msg = .say m ∧ m.reqChannel ∈ (s w).names ∨ q.msg = .leave m.reqChannel ∧ w = u)
  children : ∀ y, Parent T.graph o v y → Above T.graph o (Attended s m.reqChannel) y →
    (⟨T.addr y, .s2s (.say m)⟩ : Datagram) ∈ out

/-- **Whichever branch it takes**, a server passes the say on towards every member. -/
theorem Wired.relays (hT : T.IsTree) (hs : Wired T s m.reqChannel m.id)
    (ho : Attended s m.reqChannel o) (hpar : Parent T.graph o u v)
    (hc : m.reqChannel ∈ (s v).names) :
    Relays T s o u v m (reqServSay (s v) (T.addr u) m).out := by
  have hv : v ∈ T.nbrs u := hT.adj_iff.mp hpar.1
  obtain ⟨hid, ⟨ids, hids⟩, chnl, hf, hent, hread⟩ := hs.ready hc
  rw [reqServSay_eq hid hids hf hread]
  split
  · next hk =>
    refine ⟨?_, fun q hq => ?_, fun y hy habove =>
      absurd habove (hs.not_above hT ho hpar hk.2 hy)⟩
    · rw [hent, entries_eq_nil hk.1]
      rfl
    · obtain ⟨-, hd⟩ := mem_packets.mp hq
      injection List.mem_singleton.mp hd with hdst hm
      injection hm with hm
      exact ⟨u, T.symm u v hv, hdst, Or.inr ⟨hm, rfl⟩⟩
  · refine ⟨?_, fun q hq => ?_, fun y hy habove => ?_⟩
    · rw [forwardPackets, filter_isText_out, hent]
    · obtain ⟨-, hd⟩ := mem_packets.mp hq
      have hd := (List.mem_append.mp hd).resolve_left s2s_not_mem_textsTo
      obtain ⟨b, -, hb, he⟩ := (mem_forwardPackets (hs.nodup v)).mp hd
      obtain ⟨w, hw, rfl⟩ := hs.exists_of_subsOf hb
      injection he with hdst hm
      injection hm with hm
      exact ⟨w, hw, hdst, Or.inl ⟨hm, hs.held v w hw hb⟩⟩
    · exact List.mem_append_right _ ((mem_forwardPackets (hs.nodup v)).mpr
        ⟨_, fun he => hpar.ne_child hy (T.addr.injective he).symm, hs.lists_child hT hy habove,
          rfl⟩)

end Wired

/-! ### The network -/

/-- While the say spreads. `m` is the packet that the servers pass on, `o` where it started, and
`name` what the speaker is called there. The texts come on top of those sent before. -/
structure Airing [DecidableEq ι] (T : Topology ι) (s : ι → ServerState) (m : SayS2S) (o : ι)
    (name : Username) (before : ι → List Datagram) (n : Net ι) : Prop where
  /-- A server that the say has not reached is as it was. -/
  unhandled : ∀ v, ¬ n.Handled v m.id → n.node v = .running (s v)
  /-- Copies go to servers that hold the channel, and leaves to servers that have handled the
  say. -/
  flight : ∀ q ∈ n.flight, ∃ u v, v ∈ T.nbrs u ∧ q.src = T.addr u ∧ q.dst = T.addr v ∧
    (q.msg = .say m ∧ m.reqChannel ∈ (s v).names ∨
      q.msg = .leave m.reqChannel ∧ n.Handled v m.id)
  flood : Flood T.graph o (fun v => n.Handled v m.id) (n.copies T m.id)
  covers : CoversTo T.graph o (Attended s m.reqChannel) (fun v => n.Handled v m.id)
    (n.copies T m.id)
  origin : n.Handled o m.id
  texts : ∀ v, n.Handled v m.id → n.textsFrom v = textsTo ((s v).usersOf m.reqChannel)
    (.say m.reqChannel (if v = o then name else m.reqUsername) m.reqText) ++ before v
  silent : ∀ v, ¬ n.Handled v m.id → n.textsFrom v = before v

section Steps

variable [DecidableEq ι] {T : Topology ι} {s : ι → ServerState} {n n' : Net ι} {i o : ι}
  {m : SayS2S} {name : Username} {before : ι → List Datagram}

/-- **The say of a member starts it.** -/
theorem Airing.start {c : Name} {id : Id} {a : Sockaddr} {u : User} (t : SayText) (now : ℤ)
    (hT : T.IsTree) (hs : Wired T s c id) (hnode : ∀ i, n.node i = .running (s i))
    (hflight : n.flight = []) (hno : ∀ v, ¬ n.Handled v id) (hu : some u ∈ (s o).usersOf c)
    (ha : u.address = a) :
    ∃ (m : SayS2S) (name : Username), m.id = id ∧ m.reqChannel = c ∧ m.reqText = t ∧
      Airing T s m o name n.textsFrom
        (n.act T.addr o (.datagram a (.client (.say c t)) id now)) := by
  have hattended : Attended s c o := List.ne_nil_of_mem hu
  have hc : c ∈ (s o).names := by
    by_contra hc
    rw [ServerState.usersOf, findChannel_eq_none_iff.mpr hc] at hu
    cases hu
  obtain ⟨-, ⟨ids, hids⟩, chnl, hf, hent, hread⟩ := hs.ready hc
  rw [hent] at hu
  obtain ⟨name, usr, -, hreq⟩ := reqSay_eq (t := t) hf hread hu ha hids
  refine ⟨s2sFillSay c usr.username t id, name, rfl, rfl, rfl, ?_⟩
  generalize hm : s2sFillSay c usr.username t id = m at hreq
  obtain rfl : m.reqChannel = c := by rw [← hm]; rfl
  obtain rfl : m.reqText = t := by rw [← hm]; rfl
  obtain rfl : m.id = id := by rw [← hm]; rfl
  generalize hinp : Input.datagram a (.client (.say m.reqChannel m.reqText)) m.id now = inp
  have hout : (react (s o) inp).out =
      textsTo ((s o).usersOf m.reqChannel) (.say m.reqChannel name m.reqText) ++
        sayPackets (s o) m := by
    have hreact : react (s o) inp = reqSay (s o) a m.reqChannel m.reqText m.id := by
      rw [← hinp]
      rfl
    rw [hreact, hreq, hent]
  have hj : ∀ j, j ≠ o → (n.act T.addr o inp).node j = n.node j := fun j => Net.node_act_of_ne
  have hact : Reacts T n n (n.act T.addr o inp) o inp (s o) :=
    Reacts.of_act _ (hnode o) (hs.neighbours o) rfl rfl
  generalize n.act T.addr o inp = n' at hj hact ⊢
  have hzero : ∀ u v, n.copies T m.id u v = 0 := fun u v => by rw [Net.copies, hflight]; rfl
  have hhandled : ∀ v, n'.Handled v m.id ↔ v = o := by
    intro v
    rw [hact.handled_iff, or_iff_right (hno v), ← hinp]
    exact and_iff_left rfl
  exact
    { unhandled := fun v hv => by
        rw [hj v (mt (hhandled v).mpr hv)]
        exact hnode v
      flight := fun q hq => by
        rw [hact.flight, hflight, List.nil_append] at hq
        obtain ⟨hsrc, hd⟩ := mem_packets.mp hq
        rw [hout] at hd
        have hd := (List.mem_append.mp hd).resolve_left s2s_not_mem_textsTo
        obtain ⟨b, hb, he⟩ := (mem_sayPackets (hs.nodup o)).mp hd
        obtain ⟨v, hv, rfl⟩ := hs.exists_of_subsOf hb
        injection he with hdst hmsg
        injection hmsg with hmsg
        exact ⟨o, v, hv, hsrc, hdst, Or.inl ⟨hmsg, hs.held o v hv hb⟩⟩
      flood := hact.flood_start hT (by rw [← hinp]; rfl) hno hzero
      covers := fun u v hu hp habove => by
        obtain rfl := (hhandled u).mp hu
        refine Or.inr ?_
        rw [hact.copies_self, hzero, Nat.zero_add]
        refine pos_countP_of_mem ?_
        rw [hout]
        exact List.mem_append_right _ ((mem_sayPackets (hs.nodup u)).mpr
          ⟨_, hs.lists_child hT hp habove, rfl⟩)
      origin := (hhandled o).mpr rfl
      texts := fun v hv => by
        obtain rfl := (hhandled v).mp hv
        rw [textsFrom_cons hact.log, if_pos rfl, if_pos rfl, hout, sayPackets, filter_isText_out]
      silent := fun v hv => by
        rw [textsFrom_cons hact.log, if_neg (Ne.symm (mt (hhandled v).mpr hv)), List.nil_append] }

/-- A copy of the say is delivered. -/
theorem Airing.deliverSay (hT : T.IsTree) (hs : Wired T s m.reqChannel m.id)
    (ho : Attended s m.reqChannel o) (h : Airing T s m o name before n) {u v : ι} {p : Packet}
    {now : ℤ} (hp : p ∈ n.flight) (hv : v ∈ T.nbrs u) (hsrc : p.src = T.addr u)
    (hdst : p.dst = T.addr v) (hmsg : p.msg = .say m) (hc : m.reqChannel ∈ (s v).names) :
    Airing T s m o name before
      ((n.take p).act T.addr v (.datagram p.src (.s2s p.msg) 0 now)) := by
  have hcopy : Net.isCopy T m.id u v p = true := decide_eq_true ⟨hsrc, hdst, by rw [hmsg]; rfl⟩
  obtain ⟨hpar, hhu, hnv⟩ := h.flood.edge u v (List.countP_pos_iff.mpr ⟨p, hp, hcopy⟩)
  have hnode : n.node v = .running (s v) := h.unhandled v hnv
  generalize hsay : Input.datagram p.src (.s2s p.msg) 0 now = inp
  rw [hsrc, hmsg] at hsay
  have hrelays : Relays T s o u v m (react (s v) inp).out := by
    rw [← hsay]
    exact hs.relays hT ho hpar hc
  have hj : ∀ j, j ≠ v → ((n.take p).act T.addr v inp).node j = n.node j := fun j =>
    Net.node_act_of_ne
  have hact : Reacts T n (n.take p) ((n.take p).act T.addr v inp) v inp (s v) :=
    Reacts.of_act _ hnode (hs.neighbours v) rfl rfl
  generalize (n.take p).act T.addr v inp = n' at hj hact ⊢
  have hhandled : ∀ x, n'.Handled x m.id ↔ n.Handled x m.id ∨ x = v := by
    intro x
    rw [hact.handled_iff, ← hsay]
    exact or_congr_right (and_iff_left rfl)
  have hcount : n.copies T m.id u v = (n.take p).copies T m.id u v + 1 := by
    rw [Net.copies, (List.perm_cons_erase hp).countP_eq, List.countP_cons_of_pos hcopy]
    rfl
  exact
    { unhandled := fun x hx => by
        rw [hhandled, not_or] at hx
        rw [hj x hx.2]
        exact h.unhandled x hx.1
      flight := fun q hq => by
        rw [hact.flight] at hq
        rcases List.mem_append.mp hq with hq | hq
        · obtain ⟨x, y, hy, hqs, hqd, hm⟩ := h.flight q (List.mem_of_mem_erase hq)
          exact ⟨x, y, hy, hqs, hqd,
            hm.imp_right fun hm => ⟨hm.1, (hhandled y).mpr (Or.inl hm.2)⟩⟩
        · obtain ⟨w, hw, hqd, hm⟩ := hrelays.packets q hq
          refine ⟨v, w, hw, (mem_packets.mp hq).1, hqd, hm.imp_right ?_⟩
          rintro ⟨hleave, rfl⟩
          exact ⟨hleave, (hhandled w).mpr (Or.inl hhu)⟩
      flood := hact.flood_deliver hT hsay.symm h.flood rfl hv
        (fun x y => List.Sublist.countP_le List.erase_sublist) (by omega)
      covers := by
        refine h.covers.deliver hhandled (fun y hy habove => ?_) fun x y hx hy => ?_
        · rw [hact.copies_self]
          exact Nat.add_pos_right _ (pos_countP_of_mem (hrelays.children y hy habove))
        · rw [hact.copies_of_ne _ _ hx, Net.copies_take_of_not]
          exact decide_eq_false fun hc => hy (T.addr.injective (hc.2.1.symm.trans hdst))
      origin := (hhandled o).mpr (Or.inl h.origin)
      texts := fun x hx => by
        rw [textsFrom_cons hact.log]
        by_cases hxv : x = v
        · subst hxv
          rw [if_pos rfl, hrelays.texts, if_neg hpar.ne_root]
          exact congrArg _ (h.silent x hnv)
        · rw [if_neg (Ne.symm hxv), List.nil_append]
          exact h.texts x (((hhandled x).mp hx).resolve_right hxv)
      silent := fun x hx => by
        rw [hhandled, not_or] at hx
        rw [textsFrom_cons hact.log, if_neg (Ne.symm hx.2), List.nil_append]
        exact h.silent x hx.1 }

/-- What a say does not notice. -/
structure Unnoticed (T : Topology ι) (id : Id) (n n' : Net ι) : Prop where
  node : ∀ x, ¬ n.Handled x id → n'.node x = n.node x
  flight : ∀ q ∈ n'.flight, q ∈ n.flight
  copies : n'.copies T id = n.copies T id
  handled : ∀ x, n'.Handled x id ↔ n.Handled x id
  texts : ∀ x, n'.textsFrom x = n.textsFrom x

theorem Airing.unnoticed (h : Airing T s m o name before n) (hn : Unnoticed T m.id n n') :
    Airing T s m o name before n' := by
  have hreach : (fun x => n'.Handled x m.id) = fun x => n.Handled x m.id := by
    funext x
    exact propext (hn.handled x)
  refine ⟨fun x hx => ?_, fun q hq => ?_, ?_, ?_, (hn.handled o).mpr h.origin, fun x hx => ?_,
    fun x hx => ?_⟩
  · rw [hn.handled] at hx
    rw [hn.node x hx]
    exact h.unhandled x hx
  · obtain ⟨x, y, hy, hqs, hqd, hm⟩ := h.flight q (hn.flight q hq)
    exact ⟨x, y, hy, hqs, hqd, hm.imp_right fun hm => ⟨hm.1, (hn.handled y).mpr hm.2⟩⟩
  · rw [hreach, hn.copies]
    exact h.flood
  · rw [hreach, hn.copies]
    exact h.covers
  · rw [hn.texts]
    exact h.texts x ((hn.handled x).mp hx)
  · rw [hn.handled] at hx
    rw [hn.texts]
    exact h.silent x hx

/-- A leave is delivered, at a server that has handled the say. -/
theorem unnoticed_leave {v : ι} {a : Sockaddr} {p : Packet} {c : Name} {id : Id} {now : ℤ}
    (hmsg : p.msg = .leave c) (hhv : n.Handled v id) :
    Unnoticed T id n ((n.take p).act T.addr v (.datagram a (.s2s p.msg) 0 now)) := by
  have hcopies : (n.take p).copies T id = n.copies T id := by
    funext x y
    refine Net.copies_take_of_not (decide_eq_false fun hc => ?_)
    rw [hmsg] at hc
    cases hc.2.2
  generalize hleave : Input.datagram a (.s2s p.msg) 0 now = inp
  rw [hmsg] at hleave
  rcases (n.take p).act_cases T.addr v inp with ⟨f, -, ha⟩ | ⟨s₀, -, -, hj, hfl, hl⟩
  · rw [ha]
    exact ⟨fun _ _ => rfl, fun q hq => List.mem_of_mem_erase hq, hcopies, fun _ => Iff.rfl,
      fun _ => rfl⟩
  have hout : (react s₀ inp).out = [] := by
    rw [← hleave]
    exact (reqServLeave_cases s₀ a c).1
  generalize (n.take p).act T.addr v inp = n' at hj hfl hl ⊢
  rw [hout, packets_nil, List.append_nil] at hfl
  refine ⟨fun x hx => hj x ?_, fun q hq => ?_, ?_, fun x => ?_, fun x => ?_⟩
  · rintro rfl
    exact hx hhv
  · rw [hfl] at hq
    exact List.mem_of_mem_erase hq
  · rw [← hcopies]
    funext x y
    rw [Net.copies, hfl, Net.copies]
  · have hnone : (⟨v, inp, (react s₀ inp).out⟩ : Event ι).sayId = none := by
      rw [← hleave]
      rfl
    simp only [Net.Handled, hl, List.exists_mem_cons_iff, hnone, reduceCtorEq, and_false,
      false_or]
    rfl
  · rw [textsFrom_cons hl, hout]
    simp only [List.filter_nil, ite_self, List.nil_append]
    rfl

/-- **A delivery goes on with it.** -/
theorem Airing.deliver (hT : T.IsTree) (hs : Wired T s m.reqChannel m.id)
    (ho : Attended s m.reqChannel o) (h : Airing T s m o name before n) {p : Packet} {now : ℤ}
    (hst : Net.step T.addr n (.deliver i p now) = some n') : Airing T s m o name before n' := by
  simp only [Net.step] at hst
  split at hst
  case isFalse => cases hst
  next hp =>
  cases hst
  obtain ⟨u, v, hv, hsrc, hdst, hmsg⟩ := h.flight p hp.1
  obtain rfl : v = i := T.addr.injective (hdst.symm.trans hp.2)
  rcases hmsg with ⟨hmsg, hc⟩ | ⟨hmsg, hhv⟩
  · exact h.deliverSay hT hs ho hp.1 hv hsrc hdst hmsg hc
  · exact h.unnoticed (unnoticed_leave hmsg hhv)

/-- **When nothing is in flight**, everybody has got it. -/
theorem Airing.heard (hT : T.IsTree) (h : Airing T s m o name before n) (hq : n.flight = [])
    (v : ι) : n.textsFrom v = textsTo ((s v).usersOf m.reqChannel)
      (.say m.reqChannel (if v = o then name else m.reqUsername) m.reqText) ++ before v := by
  have hzero : ∀ x y, n.copies T m.id x y = 0 := fun x y => by rw [Net.copies, hq]; rfl
  by_cases hv : Attended s m.reqChannel v
  · have hhv := h.covers.reached_of_wanted hT.tree h.origin hzero hv
    exact h.texts v hhv
  · by_cases hhv : n.Handled v m.id
    · exact h.texts v hhv
    · have hnil : (s v).usersOf m.reqChannel = [] := not_not.mp hv
      rw [hnil]
      exact h.silent v hhv

end Steps

/-! ### Runs -/

/-- The server has recorded fewer than 1024 identifiers. -/
def Node.hasRoom : Node → Bool
  | .running s => s.recentIds.numIds < MAX_IDS
  | .faulted _ => true

theorem Node.hasRoom_running {s : ServerState} :
    (Node.running s).hasRoom = true ↔ s.recentIds.numIds < MAX_IDS :=
  decide_eq_true_iff

/-- What a run that keeps the paths leaves of the tables. -/
theorem PruneInv.wired {T : Topology ι} {n : Net ι} {s : ι → ServerState} {id : Id}
    (h : PruneInv T n) (hs : ∀ i, n.node i = .running (s i)) (hq : n.flight = [])
    (hfresh : ∀ i, id ∉ (s i).recentIds.slots ∧ (s i).recentIds.numIds < MAX_IDS) (c : Name) :
    Wired T s c id where
  neighbours i := by
    obtain ⟨t, ht, -, hn⟩ := h.running i
    cases (hs i).symm.trans ht
    exact hn
  entries i e he := by
    obtain ⟨t, ht, hsound, -⟩ := h.running i
    cases (hs i).symm.trans ht
    cases hf : findChannel (s i).channels c with
    | none =>
      rw [ServerState.usersOf, hf] at he
      exact absurd he List.not_mem_nil
    | some chnl =>
      rw [ServerState.usersOf, hf] at he
      exact (hsound.users chnl (findChannel_some hf).1).2 e he
  held u v hv hl :=
    (Net.holds_iff (hs v)).mp (h.back v u c (T.symm u v hv) ((Net.lists_iff (hs u)).mpr hl))
  upward z u hu hc := by
    have hconcerned : n.Concerned T z u c := by
      rcases hc with hm | ⟨y, hy, hyu, hl⟩
      · exact Or.inl ((Net.hasMember_iff (hs z)).mpr hm)
      · exact Or.inr ⟨y, hy, hyu, (Net.lists_iff (hs z)).mpr hl⟩
    rcases h.upward z u c hu hconcerned with hj | hl
    · rw [Net.JoinInFlight, hq] at hj
      cases hj
    · exact (Net.lists_iff (hs u)).mp hl
  fresh := hfresh

section Runs

variable [DecidableEq ι] {T : Topology ι} {unset start : ι → ℤ} {acts : List (Action ι)}
  {n n' : Net ι} {id : Id}

/-- Every say in such a run is a flood, and every identifier that is recorded was drawn. -/
theorem sayInv_treeInv_of_run (hT : T.IsTree)
    (hrun : Run (Net.step T.addr) (fun m a => m.saysAndJoins a ∧ m.keepsPaths T a)
      (T.start unset start) acts n) (hids : n.drawnIds.Nodup) : SayInv n ∧ TreeInv T n := by
  refine hrun.invariant (P := fun m => m.drawnIds.Nodup → SayInv m ∧ TreeInv T m)
    (fun m a m' ih ha hst hnd => ?_)
    (fun _ => ⟨sayInv_start _ _ _, treeInv_start T unset start⟩) hids
  obtain ⟨hsay, htree⟩ := ih (Net.nodup_drawnIds_of_step hst hnd)
  have hsingle : a.keepsSingle := by
    cases a with
    | duplicate p => cases ha.1
    | _ => rfl
  exact ⟨hsay.step hst hnd, htree.step hT hsay hsingle hst hnd⟩

/-- An identifier that differs from all others was not drawn before. -/
theorem not_mem_drawnIds {addr : ι ↪ Sockaddr} {o : ι} {s : ServerState} {inp : Input}
    (hs : n.node o = .running s) (hdrawn : inp.drawnId = some id)
    (hids : (n.act addr o inp).drawnIds.Nodup) : id ∉ n.drawnIds := by
  have hlog : (n.act addr o inp).log = ⟨o, inp, (react s inp).out⟩ :: n.log := by
    rw [Net.act_of_running hs]
  rw [Net.drawnIds_cons hlog, Event.drawnId, hdrawn] at hids
  exact (List.nodup_cons.mp hids).1

/-- **Members hear each other.** A run from startup on a tree, of logins, joins, says of members and
deliveries, keeps the paths, and no table has grown over its end. With nothing in flight, and room
in every window, a member says something; no identifier has been drawn twice, and this one is new.
In whatever order the packets that follow are delivered, once none is left every server has sent one
text to each user in the channel, and no other: the speaker's own server under one name, and all
others under the one that they were given. -/
theorem members_hear (T : Topology ι) (hT : T.IsTree) (unset start : ι → ℤ)
    (acts : List (Action ι)) (n₀ : Net ι)
    (hrun₀ : Run (Net.step T.addr) (fun m a => m.saysAndJoins a ∧ m.keepsPaths T a)
      (T.start unset start) acts n₀) (hcap : ¬ n₀.Overrun) (hq₀ : n₀.flight = [])
    (hroom : ∀ i, (n₀.node i).hasRoom) (o : ι) (a : Sockaddr) (c : Name) (t : SayText) (id : Id)
    (now : ℤ) (hmember : n₀.isMember o a c) (n₁ : Net ι)
    (hsay : Net.step T.addr n₀ (.client o a (.say c t) id now) = some n₁)
    (hids : n₁.drawnIds.Nodup) (deliveries : List (Action ι)) (n : Net ι)
    (hrun : Run (Net.step T.addr) (fun _ a => a.isDelivery) n₁ deliveries n) (hq : n.flight = []) :
    ∃ name relayed : Username, ∀ i, ∃ (s : ServerState) (us : List User),
      n₀.node i = .running s ∧ s.usersOf c = us.map some ∧
      n.textsFrom i = (us.map fun u =>
        ⟨u.address, .text (.say c (if i = o then name else relayed) t)⟩) ++ n₀.textsFrom i := by
  have hprune : PruneInv T n₀ := by
    have hinv : n₀.Overrun ∨ PruneInv T n₀ :=
      hrun₀.invariant (P := fun m => m.Overrun ∨ PruneInv T m)
        (fun m a m' hm ha hst => hm.elim (fun ho => Or.inl (ho.of_step hst))
          fun hi => hi.step ha.1 ha.2 hst)
        (Or.inr (pruneInv_start T unset start))
    exact hinv.resolve_left hcap
  obtain ⟨s, hs⟩ : ∃ s : ι → ServerState, ∀ i, n₀.node i = .running (s i) :=
    ⟨fun i => (hprune.running i).choose, fun i => (hprune.running i).choose_spec.1⟩
  obtain ⟨hsaid, htree⟩ := sayInv_treeInv_of_run hT hrun₀ (Net.nodup_drawnIds_of_step hsay hids)
  cases hsay
  -- the identifier is new to all servers
  have hnew : id ∉ n₀.drawnIds := not_mem_drawnIds (hs o) rfl hids
  have hno : ∀ v, ¬ n₀.Handled v id := by
    rintro v ⟨e, he, -, hid⟩
    exact hnew (hsaid.drawn e he id hid)
  have hwired : Wired T s c id := hprune.wired hs hq₀
    (fun i => ⟨fun hid => hno i (htree.slots i _ (hs i) id hid),
      Node.hasRoom_running.mp (hs i ▸ hroom i)⟩) c
  obtain ⟨chnl, u, hf, hu, ha⟩ := Net.exists_of_isMember (hs o) hmember
  have hu : some u ∈ (s o).usersOf c := by rwa [ServerState.usersOf, hf]
  obtain ⟨m, name, rfl, rfl, rfl, hstart⟩ :=
    Airing.start t now hT hwired hs hq₀ hno hu ha
  have hairing : Airing T s m o name n₀.textsFrom n := by
    refine hrun.invariant (P := Airing T s m o name n₀.textsFrom) (fun x a y hx ha hst => ?_) hstart
    cases a with
    | deliver i p now => exact hx.deliver hT hwired (List.ne_nil_of_mem hu) hst
    | client i a rq drawn now => cases ha
    | timeouts i now => cases ha
    | renewal i now => cases ha
    | lose p => cases ha
    | duplicate p => cases ha
  refine ⟨name, m.reqUsername, fun i => ?_⟩
  obtain ⟨us, hus⟩ := exists_users (hwired.entries i)
  refine ⟨s i, us, hs i, hus, ?_⟩
  rw [hairing.heard hT hq i, hus, textsTo_map_some]

end Runs

open Three in
/-- The end of the line was pruned, and has joined again. -/
theorem members_hear_on_line :
    ∃ n₀ n₁ n, Run (Net.step addr) (fun m a => m.saysAndJoins a ∧ m.keepsPaths line a) lineStart
        (spreadX ++ pruneEnd ++ joinAtEnd) n₀ ∧
      Net.step addr n₀ (request 0 (.say chnlX hello) 2) = some n₁ ∧
      Run (Net.step addr) (fun _ a => a.isDelivery) n₁
        [deliver 0 1 (sayBy 0 chnlX 2), deliver 1 2 (sayBy 0 chnlX 2)] n ∧
      ∃ name relayed : Username, ∀ i, ∃ (s : ServerState) (us : List User),
        n₀.node i = .running s ∧ s.usersOf chnlX = us.map some ∧
        n.textsFrom i = (us.map fun u =>
          ⟨u.address, .text (.say chnlX (if i = 0 then name else relayed) hello)⟩) ++
            n₀.textsFrom i := by
  have h : (execute (Net.step addr) (fun m a => m.saysAndJoins a ∧ m.keepsPaths line a) lineStart
      (spreadX ++ pruneEnd ++ joinAtEnd)).any (fun n₀ => n₀.flight = [] ∧
        (∀ i, (n₀.node i).isRunning) ∧ (∀ i, (n₀.node i).hasRoom) ∧
        n₀.isMember 0 (client 0) chnlX ∧ (Net.step addr n₀ (request 0 (.say chnlX hello) 2)).any
          (fun n₁ => n₁.drawnIds.Nodup ∧ (execute (Net.step addr) (fun _ a => a.isDelivery) n₁
            [deliver 0 1 (sayBy 0 chnlX 2), deliver 1 2 (sayBy 0 chnlX 2)]).any
              (fun n => n.flight = []))) = true := by
    decide
  obtain ⟨n₀, hrun₀, hn₀⟩ := exists_run_of_execute h
  obtain ⟨hq₀, hok, hroom, hmember, hn₁⟩ := of_decide_eq_true hn₀
  obtain ⟨n₁, hsay, hn₁⟩ := (Option.any_eq_true ..).mp hn₁
  obtain ⟨hids, hn⟩ := of_decide_eq_true hn₁
  obtain ⟨n, hrun, hn⟩ := exists_run_of_execute hn
  exact ⟨n₀, n₁, n, hrun₀, hsay, hrun, members_hear line line_isTree (fun _ => 0) (fun _ => 0) _ n₀
    hrun₀ (Net.not_overrun_of_isRunning hok) hq₀ hroom 0 (client 0) chnlX hello 2 0 hmember n₁ hsay
    hids _ n hrun (of_decide_eq_true hn)⟩

end DuckChat
