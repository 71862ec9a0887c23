import DuckChat.AtMostOnce
import DuckChat.Lib.TreeFlood

/-!
# No duplicates on a tree

Where the neighbour lists form a tree, the copies of a say are a flood from the server that drew the
identifier, and every copy finds a server that has not recorded it. Many says may be under way at
once, with joins, leaves, renewals and timeouts in between that change the tables; none of this
matters, since a server may pass a say on to fewer neighbours than there are.

## Main definitions

* `Topology.graph`, `Topology.IsTree`
* `Net.Handled`, `Net.DrawnAt`, `Net.copies` — one say, as a flood
* `Reacts` — what an input adds to the wires and to the log
* `TreeInv` — the invariant

## Main results

* `countP_say_out_le_one` — a server sends at most one copy to each neighbour
* `Reacts.flood_start`, `Reacts.flood_deliver`, `Reacts.flood_other` — what an input does to a flood
* `TreeInv.act`, `TreeInv.step` — the step lemmas
* `no_duplicates_on_tree`
-/

set_option autoImplicit false

namespace DuckChat

variable {ι : Type}

/-! ### The graph of a network -/

namespace Topology

/-- Servers and neighbours as a graph. -/
def graph (T : Topology ι) : SimpleGraph ι where
  Adj i j := i ≠ j ∧ j ∈ T.nbrs i
  symm := ⟨fun i j h => ⟨h.1.symm, T.symm i j h.2⟩⟩
  loopless := ⟨fun _ h => h.1 rfl⟩

instance [DecidableEq ι] (T : Topology ι) : DecidableRel T.graph.Adj := fun i j =>
  inferInstanceAs (Decidable (i ≠ j ∧ j ∈ T.nbrs i))

/-- The neighbour lists form a tree. -/
structure IsTree (T : Topology ι) : Prop where
  irrefl : ∀ i, i ∉ T.nbrs i
  tree : T.graph.IsTree

theorem IsTree.adj_iff {T : Topology ι} (hT : T.IsTree) {i j : ι} :
    T.graph.Adj i j ↔ j ∈ T.nbrs i := by
  refine ⟨fun h => h.2, fun h => ⟨?_, h⟩⟩
  rintro rfl
  exact hT.irrefl i h

end Topology

/-! ### One say as a flood -/

namespace Net

/-- A server has handled a say with the identifier. -/
def Handled (n : Net ι) (v : ι) (id : Id) : Prop := ∃ e ∈ n.log, e.server = v ∧ e.sayId = some id

/-- The server drew the identifier. -/
def DrawnAt (n : Net ι) (o : ι) (id : Id) : Prop := ∃ e ∈ n.log, e.server = o ∧ e.drawnId = some id

/-- The packet is a copy of the say with the identifier, on the link between two servers. -/
def isCopy (T : Topology ι) (id : Id) (u v : ι) (q : Packet) : Bool :=
  q.src = T.addr u ∧ q.dst = T.addr v ∧ q.msg.sayId = some id

/-- How many copies are on a link. -/
def copies (T : Topology ι) (n : Net ι) (id : Id) (u v : ι) : ℕ := n.flight.countP (isCopy T id u v)

end Net

section OneServer

variable {s : ServerState} {inp : Input} {b : Sockaddr} {id : Id}

theorem Datagram.isSay_iff {d : Datagram} :
    d.isSay id = true ↔ ∃ m : SayS2S, d.payload = .s2s (.say m) ∧ m.id = id := by
  obtain ⟨e, (t | (c | c | m))⟩ := d
  · simp [Datagram.isSay]
  · simp [Datagram.isSay]
  · simp [Datagram.isSay]
  · simp [Datagram.isSay]

/-- One packet at most for each neighbour that passes a filter. -/
theorem countP_say_map_le_one (hnd : s.neighbours.Nodup) (f : Server → Bool) (m : S2S) :
    ((s.cnnctSrvrs.filter f).map fun srvr => (⟨srvr.addr, .s2s m⟩ : Datagram)).countP
      (fun d => d.dest = b ∧ d.isSay id) ≤ 1 := by
  rw [List.countP_map]
  calc (s.cnnctSrvrs.filter f).countP _
      ≤ (s.cnnctSrvrs.filter f).countP (fun srvr => srvr.addr == b) := by
        refine List.countP_mono_left fun srvr _ h => ?_
        have h := of_decide_eq_true h
        exact beq_iff_eq.mpr h.1
    _ ≤ s.cnnctSrvrs.countP (fun srvr => srvr.addr == b) :=
        List.Sublist.countP_le List.filter_sublist
    _ = s.neighbours.count b := by rw [ServerState.neighbours, List.count, List.countP_map]; rfl
    _ ≤ 1 := List.nodup_iff_count_le_one.mp hnd b

/-- **A server sends at most one copy of a say to each neighbour.** -/
theorem countP_say_out_le_one (hnd : s.neighbours.Nodup) :
    (react s inp).out.countP (fun d => d.dest = b ∧ d.isSay id) ≤ 1 := by
  have hzero : ∀ l : List Datagram, (∀ d ∈ l, ∃ t, d.payload = .text t) →
      l.countP (fun d => d.dest = b ∧ d.isSay id) = 0 := by
    intro l hl
    refine List.countP_eq_zero.mpr fun d hd h => ?_
    obtain ⟨t, ht⟩ := hl d hd
    obtain ⟨m, hm, -⟩ := Datagram.isSay_iff.mp (of_decide_eq_true h).2
    rw [ht] at hm
    cases hm
  have hnone : inp.sayId = none →
      (react s inp).out.countP (fun d => d.dest = b ∧ d.isSay id) ≤ 1 := by
    intro hi
    rw [List.countP_eq_zero.mpr]
    · exact Nat.zero_le 1
    rintro ⟨e, x⟩ hd h
    obtain ⟨m, hm, -⟩ := Datagram.isSay_iff.mp (of_decide_eq_true h).2
    have hm : x = .s2s (.say m) := hm
    rw [hm] at hd
    rw [sayId_of_mem_out hd] at hi
    cases hi
  rcases inp with ⟨a, (rq | m), drawn, now⟩ | now | now
  · cases rq with
    | say c t =>
      show (reqSay s a c t drawn).out.countP _ ≤ 1
      rcases reqSay_cases s a c t drawn with ⟨f, -, ho⟩ | ⟨chnl, usr, _, -, -, -, -, -, ho⟩
      · have hp : packets b (reqSay s a c t drawn).out = [] := ho b
        rw [List.countP_eq_zero.mpr]
        · exact Nat.zero_le 1
        rintro ⟨e, x⟩ hd h
        obtain ⟨m, hm, -⟩ := Datagram.isSay_iff.mp (of_decide_eq_true h).2
        have hm : x = .s2s (.say m) := hm
        rw [hm] at hd
        have : (⟨b, e, .say m⟩ : Packet) ∈ packets b (reqSay s a c t drawn).out :=
          mem_packets.mpr ⟨rfl, hd⟩
        rw [hp] at this
        cases this
      · rw [ho, List.countP_append, hzero _ fun d hd => sayLoop_out_text hd, Nat.zero_add,
          sayPackets]
        exact countP_say_map_le_one hnd _ _
    | login u => exact hnone rfl
    | logout => exact hnone rfl
    | join c => exact hnone rfl
    | leave c => exact hnone rfl
    | list => exact hnone rfl
    | who c => exact hnone rfl
    | other k => exact hnone rfl
  · cases m with
    | join c => exact hnone rfl
    | leave c => exact hnone rfl
    | say m =>
      show (reqServSay s a m).out.countP _ ≤ 1
      generalize hx : reqServSay s a m = r
      cases hx ▸ reqServSay_cases s a m with
      | fault f hf ho => rw [hzero _ fun d hd => ⟨_, ho d hd⟩]; exact Nat.zero_le 1
      | duplicate => exact List.countP_le_length
      | prune => exact List.countP_le_length
      | forward =>
        rw [List.countP_append, hzero _ fun d hd => ⟨_, deliverLoop_out_text hd⟩, Nat.zero_add,
          forwardPackets]
        exact countP_say_map_le_one hnd _ _
  · exact hnone rfl
  · exact hnone rfl

/-- Copies on the links, counted at the server that sends them. -/
theorem countP_isCopy_packets (T : Topology ι) (i v : ι) (out : List Datagram) :
    (packets (T.addr i) out).countP (Net.isCopy T id i v) =
      out.countP fun d => d.dest = T.addr v ∧ d.isSay id := by
  induction out with
  | nil => rfl
  | cons d out ih =>
    obtain ⟨e, (t | (c | c | m))⟩ := d <;>
      simp [packets_cons_s2s, packets_cons_text, List.countP_cons, ih, Net.isCopy, S2S.sayId,
        Datagram.isSay]

theorem countP_isCopy_packets_of_ne {T : Topology ι} {i u v : ι} (h : u ≠ i)
    (out : List Datagram) : (packets (T.addr i) out).countP (Net.isCopy T id u v) = 0 := by
  refine List.countP_eq_zero.mpr fun q hq hc => h ?_
  have hsrc := (mem_packets.mp hq).1
  exact T.addr.injective ((of_decide_eq_true hc).1.symm.trans hsrc)

end OneServer

/-! ### One input at one server -/

/-- What an input at a running server adds to the wires and to the log. `n₀` is the network before
the input, without the packet that carries it. -/
structure Reacts (T : Topology ι) (n n₀ n' : Net ι) (i : ι) (inp : Input) (s : ServerState) :
    Prop where
  node : n.node i = .running s
  neighbours : s.neighbours = T.nbrAddrs i
  flight : n'.flight = n₀.flight ++ packets (T.addr i) (react s inp).out
  log : n'.log = ⟨i, inp, (react s inp).out⟩ :: n.log

namespace Reacts

variable {T : Topology ι} {n n₀ n' : Net ι} {i : ι} {inp : Input} {s : ServerState}

theorem of_act [DecidableEq ι] (inp : Input) (hs : n.node i = .running s)
    (hnbr : s.neighbours = T.nbrAddrs i) (hn : n₀.node = n.node) (hl : n₀.log = n.log) :
    Reacts T n n₀ (n₀.act T.addr i inp) i inp s := by
  have h₀ : n₀.node i = .running s := by rw [hn, hs]
  refine ⟨hs, hnbr, ?_, ?_⟩
  · rw [Net.act_of_running h₀]
  · rw [Net.act_of_running h₀, hl]

theorem nodup_neighbours (h : Reacts T n n₀ n' i inp s) : s.neighbours.Nodup := by
  rw [h.neighbours]
  exact (T.nodup i).map T.addr.injective

/-- A neighbour's record belongs to a neighbour. -/
theorem mem_nbrs (h : Reacts T n n₀ n' i inp s) {srvr : Server} {v : ι} (hs : srvr ∈ s.cnnctSrvrs)
    (ha : srvr.addr = T.addr v) : v ∈ T.nbrs i := by
  have hmem : srvr.addr ∈ s.neighbours := List.mem_map_of_mem (f := Server.addr) hs
  rw [h.neighbours, ha] at hmem
  exact Topology.mem_nbrAddrs.mp hmem

theorem handled_iff (h : Reacts T n n₀ n' i inp s) (v : ι) (id : Id) :
    n'.Handled v id ↔ n.Handled v id ∨ (v = i ∧ inp.sayId = some id) := by
  simp only [Net.Handled, h.log, List.exists_mem_cons_iff, Event.sayId]
  rw [or_comm, eq_comm]

theorem drawnAt_iff (h : Reacts T n n₀ n' i inp s) (o : ι) (id : Id) :
    n'.DrawnAt o id ↔ n.DrawnAt o id ∨ (o = i ∧ inp.drawnId = some id) := by
  simp only [Net.DrawnAt, h.log, List.exists_mem_cons_iff, Event.drawnId]
  rw [or_comm, eq_comm]

/-- The copies on the links from the server. -/
theorem copies_self (h : Reacts T n n₀ n' i inp s) (id : Id) (v : ι) :
    n'.copies T id i v =
      n₀.copies T id i v + (react s inp).out.countP fun d => d.dest = T.addr v ∧ d.isSay id := by
  rw [Net.copies, h.flight, List.countP_append, countP_isCopy_packets, Net.copies]

/-- The copies on the other links. -/
theorem copies_of_ne (h : Reacts T n n₀ n' i inp s) (id : Id) {u : ι} (v : ι) (hu : u ≠ i) :
    n'.copies T id u v = n₀.copies T id u v := by
  rw [Net.copies, h.flight, List.countP_append, countP_isCopy_packets_of_ne hu, Nat.add_zero,
    Net.copies]

/-- A copy is sent along an edge, and not back to where the say comes from. -/
theorem of_sent (h : Reacts T n n₀ n' i inp s) (hT : T.IsTree) {id : Id} {v : ι}
    (hpos : 0 < (react s inp).out.countP fun d => d.dest = T.addr v ∧ d.isSay id) :
    inp.sayId = some id ∧ T.graph.Adj i v ∧
      ∀ src m drawn now, inp = .datagram src (.s2s (.say m)) drawn now → T.addr v ≠ src := by
  obtain ⟨⟨e, x⟩, hd, hk⟩ := List.countP_pos_iff.mp hpos
  obtain ⟨hdst, hx⟩ := of_decide_eq_true hk
  obtain ⟨m, hm, rfl⟩ := Datagram.isSay_iff.mp hx
  have hdst : e = T.addr v := hdst
  have hm : x = .s2s (.say m) := hm
  rw [hdst, hm] at hd
  obtain ⟨⟨srvr, hs, haddr, -⟩, hk⟩ := mem_say_out hd
  refine ⟨sayId_of_mem_out hd, hT.adj_iff.mpr (h.mem_nbrs hs haddr), fun src m' drawn now he => ?_⟩
  rcases hk with ⟨_, _, _, he'⟩ | ⟨_, _, _, he', hne, -⟩
  · rw [he] at he'
    cases he'
  · rw [he] at he'
    cases he'
    exact hne

/-- **A flood starts** at the server that draws the identifier, when there is no trace of it yet. -/
theorem flood_start (h : Reacts T n n₀ n' i inp s) (hT : T.IsTree) {id : Id}
    (hd : inp.drawnId = some id) (hno : ∀ v, ¬ n.Handled v id)
    (hzero : ∀ u v, n₀.copies T id u v = 0) :
    Flood T.graph i (fun v => n'.Handled v id) (n'.copies T id) := by
  refine Flood.start (fun v => (react s inp).out.countP fun d => d.dest = T.addr v ∧ d.isSay id)
    (fun v => ?_) (fun v => countP_say_out_le_one h.nodup_neighbours)
    (fun v hv => (h.of_sent hT hv).2.1) (fun v => ?_) fun u v hu => ?_
  · rw [h.handled_iff]
    exact ⟨fun hv => (hv.resolve_left (hno v)).1,
      fun hv => Or.inr ⟨hv, Input.sayId_of_drawnId hd⟩⟩
  · rw [h.copies_self, hzero, Nat.zero_add]
  · rw [h.copies_of_ne id v hu, hzero]

/-- **A flood goes on** when a copy arrives. -/
theorem flood_deliver (h : Reacts T n n₀ n' i inp s) (hT : T.IsTree) {o u : ι} {src : Sockaddr}
    {m : SayS2S} {drawn : Id} {now : ℤ} (hinp : inp = .datagram src (.s2s (.say m)) drawn now)
    (hflood : Flood T.graph o (fun v => n.Handled v m.id) (n.copies T m.id))
    (hu : T.addr u = src) (hadj : i ∈ T.nbrs u)
    (hc : ∀ u v, n₀.copies T m.id u v ≤ n.copies T m.id u v)
    (hlt : n₀.copies T m.id u i < n.copies T m.id u i) :
    Flood T.graph o (fun v => n'.Handled v m.id) (n'.copies T m.id) := by
  have hid : inp.sayId = some m.id := by rw [hinp]; rfl
  have hui : u ≠ i := by
    rintro rfl
    exact hT.irrefl u hadj
  refine Flood.deliver (u := u) (v := i)
    (fun y => (react s inp).out.countP fun d => d.dest = T.addr y ∧ d.isSay m.id) hT.tree hflood
    (by omega) (fun x => ?_) (fun y => countP_say_out_le_one h.nodup_neighbours) (fun y hy => ?_)
    ?_ (fun y => ?_) fun x y hx => ?_
  · rw [h.handled_iff]
    exact or_congr_right (and_iff_left hid)
  · obtain ⟨-, hiy, hne⟩ := h.of_sent hT hy
    refine ⟨hiy, ?_⟩
    rintro rfl
    exact hne src m drawn now hinp hu
  · rw [h.copies_of_ne _ _ hui]
    exact hlt
  · rw [h.copies_self]
    exact Nat.add_le_add_right (hc _ _) _
  · rw [h.copies_of_ne _ _ hx]
    exact hc _ _

/-- **A flood does not notice** an input about something else. -/
theorem flood_other (h : Reacts T n n₀ n' i inp s) (hT : T.IsTree) {o : ι} {id : Id}
    (hid : inp.sayId ≠ some id) (hflood : Flood T.graph o (fun v => n.Handled v id) (n.copies T id))
    (hc : ∀ u v, n₀.copies T id u v ≤ n.copies T id u v) :
    Flood T.graph o (fun v => n'.Handled v id) (n'.copies T id) := by
  have hreach : (fun v => n'.Handled v id) = fun v => n.Handled v id := by
    funext v
    exact propext ((h.handled_iff v id).trans (or_iff_left fun hk => hid hk.2))
  rw [hreach]
  refine hflood.of_le fun u v => ?_
  by_cases hu : u = i
  · rw [hu]
    have hz : (react s inp).out.countP (fun d => d.dest = T.addr v ∧ d.isSay id) = 0 := by
      by_contra hne
      exact hid (h.of_sent hT (Nat.pos_of_ne_zero hne)).1
    rw [h.copies_self, hz]
    exact hc i v
  · rw [h.copies_of_ne id v hu]
    exact hc u v

end Reacts

/-! ### The invariant -/

/-- Every say is a flood from where it was drawn. -/
structure TreeInv (T : Topology ι) (n : Net ι) : Prop where
  neighbours : ∀ i s, n.node i = .running s → s.neighbours = T.nbrAddrs i
  /-- What is recorded was handled. -/
  slots : ∀ i s, n.node i = .running s → ∀ id ∈ s.recentIds.slots, n.Handled i id
  links : ∀ q ∈ n.flight, ∀ m, q.msg = .say m →
    ∃ u v, v ∈ T.nbrs u ∧ q.src = T.addr u ∧ q.dst = T.addr v
  flood : ∀ o id, n.DrawnAt o id → Flood T.graph o (fun v => n.Handled v id) (n.copies T id)

theorem treeInv_start (T : Topology ι) (unset now : ι → ℤ) : TreeInv T (T.start unset now) where
  neighbours i s hs := by
    cases hs
    exact neighbours_start
  slots i s hs := by
    cases hs
    exact fun _ h => absurd h List.not_mem_nil
  links _ hq := absurd hq List.not_mem_nil
  flood o id := by
    rintro ⟨e, he, -⟩
    exact absurd he List.not_mem_nil

/-- Copies may get lost. -/
theorem TreeInv.of_le {T : Topology ι} {n n' : Net ι} (h : TreeInv T n) (hn : n'.node = n.node)
    (hl : n'.log = n.log) (hf : ∀ q ∈ n'.flight, q ∈ n.flight)
    (hc : ∀ id u v, n'.copies T id u v ≤ n.copies T id u v) : TreeInv T n' where
  neighbours := by rw [hn]; exact h.neighbours
  slots i s hs id hid := by
    rw [hn] at hs
    rw [Net.Handled, hl]
    exact h.slots i s hs id hid
  links q hq := h.links q (hf q hq)
  flood o id ho := by
    simp only [Net.DrawnAt, Net.Handled, hl] at ho ⊢
    exact (h.flood o id ho).of_le (hc id)

section OneInput

variable {T : Topology ι} {n n₀ n' : Net ι} {i o : ι} {inp : Input} {s t : ServerState} {id : Id}

/-- What a server has recorded after an input it has handled. -/
theorem TreeInv.slots_react (h : TreeInv T n) (hact : Reacts T n n₀ n' i inp s)
    (hr : (react s inp).result = .ok t) (hid : id ∈ t.recentIds.slots) :
    n.Handled i id ∨ inp.sayId = some id := by
  rcases recentIds_of_react hr with ⟨he, -⟩ | ⟨id', hid', hrec⟩
  · rw [he] at hid
    exact Or.inl (h.slots i s hact.node id hid)
  · rcases RecentIds.mem_of_record hrec hid with hid | rfl
    · exact Or.inl (h.slots i s hact.node id hid)
    · exact Or.inr hid'

/-- Says are sent along the edges. -/
theorem Reacts.links (hact : Reacts T n n₀ n' i inp s) {q : Packet} {m : SayS2S}
    (hq : q ∈ packets (T.addr i) (react s inp).out) (hm : q.msg = .say m) :
    ∃ u v, v ∈ T.nbrs u ∧ q.src = T.addr u ∧ q.dst = T.addr v := by
  obtain ⟨hsrc, hd⟩ := mem_packets.mp hq
  rw [hm] at hd
  obtain ⟨⟨srvr, hsrv, haddr, -⟩, -⟩ := mem_say_out hd
  have hmem : srvr.addr ∈ s.neighbours := List.mem_map_of_mem (f := Server.addr) hsrv
  rw [hact.neighbours] at hmem
  obtain ⟨v, hv, hva⟩ := List.mem_map.mp hmem
  exact ⟨i, v, hv, hsrc, (hva.trans haddr).symm⟩

/-- A say under a new identifier starts a flood. -/
theorem Reacts.flood_drawn (hT : T.IsTree) (hact : Reacts T n n₀ n' i inp s) (hsay : SayInv n)
    (hf : ∀ q ∈ n₀.flight, q ∈ n.flight) (hnd : n'.drawnIds.Nodup)
    (hnew : inp.drawnId = some id) (ho : n'.DrawnAt o id) :
    Flood T.graph o (fun v => n'.Handled v id) (n'.copies T id) := by
  have hfresh : id ∉ n.drawnIds := by
    rw [Net.drawnIds_cons hact.log] at hnd
    have hd : (⟨i, inp, (react s inp).out⟩ : Event ι).drawnId = some id := hnew
    rw [hd] at hnd
    exact (List.nodup_cons.mp hnd).1
  have ho : o = i := by
    rcases (hact.drawnAt_iff o id).mp ho with ⟨e, he, -, hid⟩ | ⟨rfl, -⟩
    · exact absurd (List.mem_filterMap.mpr ⟨e, he, hid⟩) hfresh
    · rfl
  rw [ho]
  refine hact.flood_start hT hnew ?_ fun u v => ?_
  · rintro v ⟨e, he, -, hid⟩
    exact hfresh (hsay.drawn e he id hid)
  · refine List.countP_eq_zero.mpr fun q hq hk => hfresh ?_
    obtain ⟨-, -, hid⟩ := of_decide_eq_true hk
    cases hm : q.msg with
    | join c => rw [hm] at hid; cases hid
    | leave c => rw [hm] at hid; cases hid
    | say m =>
      rw [hm] at hid
      cases hid
      exact hsay.flight q (hf q hq) m hm

/-- **The step lemma.** -/
theorem TreeInv.act [DecidableEq ι] (hT : T.IsTree) (h : TreeInv T n) (hsay : SayInv n)
    (hn : n₀.node = n.node) (hl : n₀.log = n.log) (hf : ∀ q ∈ n₀.flight, q ∈ n.flight)
    (hc : ∀ id u v, n₀.copies T id u v ≤ n.copies T id u v)
    (htaken : ∀ src m drawn now, inp = .datagram src (.s2s (.say m)) drawn now →
      ∃ u, T.addr u = src ∧ i ∈ T.nbrs u ∧ n₀.copies T m.id u i < n.copies T m.id u i)
    (hnd : (n₀.act T.addr i inp).drawnIds.Nodup) : TreeInv T (n₀.act T.addr i inp) := by
  cases hs₀ : n₀.node i with
  | faulted f =>
    rw [Net.act_of_faulted hs₀]
    exact h.of_le hn hl hf hc
  | running s =>
    have hs : n.node i = .running s := by rw [← hn, hs₀]
    have hact := Reacts.of_act inp hs (h.neighbours i s hs) hn hl
    refine ⟨fun j t ht => ?_, fun j t ht id hid => ?_, fun q hq m hm => ?_, fun o id ho => ?_⟩
    · by_cases hji : j = i
      · subst hji
        obtain ⟨s₁, hs₁, hr⟩ := Net.exists_of_act_running ht
        cases hs₀.symm.trans hs₁
        exact (neighbours_of_react hr).trans hact.neighbours
      · rw [Net.node_act_of_ne hji, hn] at ht
        exact h.neighbours j t ht
    · rw [hact.handled_iff]
      by_cases hji : j = i
      · subst hji
        obtain ⟨s₁, hs₁, hr⟩ := Net.exists_of_act_running ht
        cases hs₀.symm.trans hs₁
        exact (h.slots_react hact hr hid).imp_right fun hid => ⟨rfl, hid⟩
      · rw [Net.node_act_of_ne hji, hn] at ht
        exact Or.inl (h.slots j t ht id hid)
    · rw [hact.flight] at hq
      rcases List.mem_append.mp hq with hq | hq
      · exact h.links q (hf q hq) m hm
      · exact hact.links hq hm
    · by_cases hnew : inp.drawnId = some id
      · exact hact.flood_drawn hT hsay hf hnd hnew ho
      · have ho := ((hact.drawnAt_iff o id).mp ho).resolve_right fun hk => hnew hk.2
        have hflood := h.flood o id ho
        by_cases hid : inp.sayId = some id
        · obtain ⟨src, m, drawn, now, hinp, rfl⟩ := (Input.cases_of_sayId hid).resolve_left hnew
          obtain ⟨u, hu, hadj, hlt⟩ := htaken src m drawn now hinp
          exact hact.flood_deliver hT hinp hflood hu hadj (hc m.id) hlt
        · exact hact.flood_other hT hid hflood (hc id)

end OneInput

/-! ### Runs -/

/-- Everything but the duplication of a packet. -/
def Action.keepsSingle : Action ι → Bool
  | .duplicate _ => false
  | _ => true

/-- **The step lemma for the network.** -/
theorem TreeInv.step [DecidableEq ι] {T : Topology ι} (hT : T.IsTree) {n n' : Net ι} {a : Action ι}
    (h : TreeInv T n) (hsay : SayInv n) (ha : a.keepsSingle)
    (hst : Net.step T.addr n a = some n') (hnd : n'.drawnIds.Nodup) : TreeInv T n' := by
  have hle : ∀ p id u v, (n.take p).copies T id u v ≤ n.copies T id u v := fun p id u v =>
    List.Sublist.countP_le List.erase_sublist
  have hsub : ∀ p, ∀ q ∈ (n.take p).flight, q ∈ n.flight := fun p q hq => List.mem_of_mem_erase hq
  cases a with
  | client i clientAddr rq drawn now =>
    cases hst
    exact h.act hT hsay rfl rfl (fun q hq => hq) (fun _ _ _ => Nat.le_refl _)
      (fun _ _ _ _ he => by cases he) hnd
  | timeouts i now =>
    cases hst
    exact h.act hT hsay rfl rfl (fun q hq => hq) (fun _ _ _ => Nat.le_refl _)
      (fun _ _ _ _ he => by cases he) hnd
  | renewal i now =>
    cases hst
    exact h.act hT hsay rfl rfl (fun q hq => hq) (fun _ _ _ => Nat.le_refl _)
      (fun _ _ _ _ he => by cases he) hnd
  | deliver i p now =>
    simp only [Net.step] at hst
    split at hst
    case isFalse => cases hst
    next hp =>
    cases hst
    refine h.act hT hsay rfl rfl (hsub p) (hle p) ?_ hnd
    intro src m drawn now' he
    have hm : p.msg = .say m := by
      injection he with _ hrq
      injection hrq
    have hsrc : p.src = src := by injection he
    obtain ⟨u, v, hv, hu, hdst⟩ := h.links p hp.1 m hm
    have hvi : v = i := T.addr.injective (hdst.symm.trans hp.2)
    subst hvi
    refine ⟨u, hu.symm.trans hsrc, hv, ?_⟩
    have hcount : n.copies T m.id u v = (n.take p).copies T m.id u v + 1 := by
      rw [Net.copies, ((List.perm_cons_erase hp.1).countP_eq _), List.countP_cons_of_pos]
      · rfl
      · exact decide_eq_true ⟨hu, hdst, by rw [hm]; rfl⟩
    omega
  | lose p =>
    simp only [Net.step] at hst
    split at hst
    · cases hst
      exact h.of_le rfl rfl (hsub p) (hle p)
    · cases hst
  | duplicate p => cases ha

/-- **No duplicates on a tree.** In every run from startup of client requests, renewals, timeouts
and deliveries, in any order and over wires that lose but do not duplicate, where all drawn
identifiers differ: whatever say is delivered next, the server that takes it does not find its
identifier among the recorded ones. -/
theorem no_duplicates_on_tree [DecidableEq ι] (T : Topology ι) (hT : T.IsTree) (unset now : ι → ℤ)
    (acts : List (Action ι)) (n : Net ι)
    (h : Run (Net.step T.addr) (fun _ a => a.keepsSingle) (T.start unset now) acts n)
    (hdrawn : n.drawnIds.Nodup) :
    ∀ p ∈ n.flight, ∀ v m s, p.dst = T.addr v → p.msg = .say m → n.node v = .running s →
      hasId s.recentIds m.id ≠ .ok true := by
  have hinv : SayInv n ∧ TreeInv T n :=
    h.invariant (P := fun m => m.drawnIds.Nodup → SayInv m ∧ TreeInv T m)
      (fun m a m' ih ha hst hnd => by
        obtain ⟨hsay, htree⟩ := ih (Net.nodup_drawnIds_of_step hst hnd)
        exact ⟨hsay.step hst hnd, htree.step hT hsay ha hst hnd⟩)
      (fun _ => ⟨sayInv_start _ _ _, treeInv_start T unset now⟩) hdrawn
  obtain ⟨hsay, htree⟩ := hinv
  intro p hp v m s hdst hm hs hdup
  obtain ⟨e, he, ho⟩ := List.mem_filterMap.mp (hsay.flight p hp m hm)
  obtain ⟨u, v', -, hu, hv'⟩ := htree.links p hp m hm
  have hvv : v' = v := T.addr.injective (hv'.symm.trans hdst)
  subst hvv
  have hpos : 0 < n.copies T m.id u v' :=
    List.countP_pos_iff.mpr ⟨p, hp, decide_eq_true ⟨hu, hdst, by rw [hm]; rfl⟩⟩
  have hflood := htree.flood e.server m.id ⟨e, he, rfl, ho⟩
  exact (hflood.edge u v' hpos).2.2 (htree.slots v' s hs m.id (hasId_eq_ok_true.mp hdup))

namespace Three

theorem line_isTree : line.IsTree where
  irrefl := by decide
  tree := by
    rw [SimpleGraph.isTree_iff_connected_and_card]
    have h01 : line.graph.Adj 0 1 := ⟨by decide, by decide⟩
    have h12 : line.graph.Adj 1 2 := ⟨by decide, by decide⟩
    refine ⟨⟨?_⟩, ?_⟩
    · have hreach : ∀ i, line.graph.Reachable 1 i
        | 0 => h01.reachable.symm
        | 1 => SimpleGraph.Reachable.refl 1
        | 2 => h12.reachable
      exact fun i j => (hreach i).symm.trans (hreach j)
    · rw [Nat.card_eq_fintype_card, Nat.card_eq_fintype_card]
      decide

end Three

open Three in
/-- A say has come half way along the line. -/
theorem no_duplicates_on_line :
    ∃ n, Run (Net.step addr) (fun _ a => a.keepsSingle) lineStart
        (gather ++ [request 0 (.say common hello) 1, deliver 0 1 (sayBy 0 common 1)]) n ∧
      ⟨addr 1, addr 2, sayBy 0 common 1⟩ ∈ n.flight ∧
      ∀ s, n.node 2 = .running s → hasId s.recentIds 1 ≠ .ok true := by
  have h : (execute (Net.step addr) (fun _ a => a.keepsSingle) lineStart
      (gather ++ [request 0 (.say common hello) 1, deliver 0 1 (sayBy 0 common 1)])).any
        (fun n => n.drawnIds.Nodup ∧ ⟨addr 1, addr 2, sayBy 0 common 1⟩ ∈ n.flight) = true := by
    decide
  obtain ⟨n, hr, hn⟩ := exists_run_of_execute h
  obtain ⟨hnd, hp⟩ := of_decide_eq_true hn
  exact ⟨n, hr, hp, fun s hs => no_duplicates_on_tree line line_isTree (fun _ => 0) (fun _ => 0) _ n
    hr hnd _ hp 2 _ s rfl rfl hs⟩

end DuckChat
