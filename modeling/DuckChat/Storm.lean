import DuckChat.NetworkRules
import Mathlib.Algebra.BigOperators.Group.Finset.Basic
import Mathlib.Algebra.Order.BigOperators.Group.Finset
import Mathlib.Tactic.Ring

/-!
# Deliveries alone come to an end

One delivery can put many packets on the wires: a join is passed on by a server that does not hold
the channel, a say by a server that has not seen the identifier. Either happens once for each server
and channel or identifier, and this pays for it: a server *owes* a packet to every neighbour for
each channel on the wires that it lacks, and two for each identifier on the wires that it has not
seen, because a say may come back as a duplicate and is then answered with a leave.

## Main definitions

* `ServerState.owed`, `Node.owed` — what a server can still emit
* `Net.potential` — what is in flight and what is owed

## Main results

* `emission_lt` — what one server sends is paid for
* `potential_deliver_lt` — every delivery lowers the potential
* `deliveries_end`
-/

set_option autoImplicit false

namespace DuckChat

variable {ι : Type}

/-! ### The measure -/

instance (ids : RecentIds) (id : Id) : Decidable (ids.Seen id) :=
  inferInstanceAs (Decidable (id ∈ ids.slots ∨ MAX_IDS < ids.numIds))

/-- A say counts twice: it may turn into a leave. -/
def S2S.weight : S2S → ℕ
  | .join _ => 1
  | .leave _ => 1
  | .say _ => 2

/-- What a server can still emit while the channels `js` and the identifiers `ids` are on the
wires. -/
def ServerState.owed (s : ServerState) (js : Finset Name) (ids : Finset Id) : ℕ :=
  s.neighbours.length *
    ((js \ s.names.toFinset).card +
      2 * (ids.filter fun id => ¬ s.recentIds.Seen id).card)

/-- A faulted server emits nothing. -/
def Node.owed (js : Finset Name) (ids : Finset Id) : Node → ℕ
  | .running s => s.owed js ids
  | .faulted _ => 0

/-- The weight of the packets in a list. -/
def weight (ps : List Packet) : ℕ := (ps.map fun p => p.msg.weight).sum

namespace Net

/-- The channels announced by the packets in flight. -/
def joining (n : Net ι) : Finset Name := (n.flight.filterMap fun p => p.msg.joinName).toFinset

/-- The identifiers in flight. -/
def saying (n : Net ι) : Finset Id := (n.flight.filterMap fun p => p.msg.sayId).toFinset

/-- The weight of what is in flight and of what the servers can still emit. -/
def potential [Fintype ι] (n : Net ι) : ℕ :=
  weight n.flight + ∑ i, (n.node i).owed n.joining n.saying

end Net

/-! ### What one server emits -/

section OneServer

variable {s : ServerState} {js js' : Finset Name} {ids ids' : Finset Id} {a b : Sockaddr}

@[simp] theorem weight_nil : weight [] = 0 := rfl

@[simp] theorem weight_append (ps qs : List Packet) :
    weight (ps ++ qs) = weight ps + weight qs := by
  simp [weight]

/-- Copies of one packet for a list of destinations. -/
theorem weight_map {α : Type} (l : List α) (f : α → Sockaddr) (m : S2S) :
    weight (l.map fun x => ⟨b, f x, m⟩) = l.length * m.weight := by
  induction l with
  | nil => simp
  | cons x l ih =>
    rw [List.map_cons, weight, List.map_cons, List.sum_cons, ← weight, ih, List.length_cons,
      Nat.succ_mul, Nat.add_comm]

/-- Fewer channels and identifiers on the wires, a smaller debt. -/
theorem Node.owed_mono (nd : Node) (hj : js' ⊆ js) (hi : ids' ⊆ ids) :
    nd.owed js' ids' ≤ nd.owed js ids := by
  cases nd with
  | faulted f => exact Nat.le_refl _
  | running s =>
    refine Nat.mul_le_mul_left _ (Nat.add_le_add ?_ (Nat.mul_le_mul_left _ ?_))
    · exact Finset.card_le_card (Finset.sdiff_subset_sdiff hj (Finset.Subset.refl _))
    · exact Finset.card_le_card (Finset.filter_subset_filter _ hi)

/-- The more channels are held, the fewer are left. -/
theorem sdiff_toFinset_subset {xs ys : List Name} (js : Finset Name) (h : ∀ c ∈ xs, c ∈ ys) :
    js \ ys.toFinset ⊆ js \ xs.toFinset :=
  Finset.sdiff_subset_sdiff (Finset.Subset.refl js)
    fun c hc => List.mem_toFinset.mpr (h c (List.mem_toFinset.mp hc))

/-- A server that keeps its neighbours and forgets nothing does not owe more. -/
theorem owed_le {t : ServerState} (js : Finset Name) (ids : Finset Id)
    (hn : t.neighbours = s.neighbours) (hc : ∀ c ∈ s.names, c ∈ t.names)
    (hr : ∀ id, s.recentIds.Seen id → t.recentIds.Seen id) : t.owed js ids ≤ s.owed js ids := by
  rw [ServerState.owed, ServerState.owed, hn]
  refine Nat.mul_le_mul_left _ (Nat.add_le_add ?_ (Nat.mul_le_mul_left _ ?_))
  · exact Finset.card_le_card (sdiff_toFinset_subset js hc)
  · exact Finset.card_le_card (Finset.monotone_filter_right _ fun id _ h => mt (hr id) h)

/-- A new channel pays for one packet to each neighbour. -/
theorem owed_new_channel {t : ServerState} {c : Name} (ids : Finset Id)
    (hn : t.neighbours = s.neighbours)
    (hr : t.recentIds = s.recentIds) (hsub : ∀ d ∈ s.names, d ∈ t.names) (hc : c ∈ js)
    (hold : c ∉ s.names) (hnew : c ∈ t.names) :
    s.neighbours.length + t.owed js ids ≤ s.owed js ids := by
  have hlt : (js \ t.names.toFinset).card < (js \ s.names.toFinset).card := by
    refine Finset.card_lt_card
      (Finset.ssubset_iff_of_subset (sdiff_toFinset_subset js hsub) |>.mpr ⟨c, ?_, ?_⟩)
    · exact Finset.mem_sdiff.mpr ⟨hc, mt List.mem_toFinset.mp hold⟩
    · exact fun h => (Finset.mem_sdiff.mp h).2 (List.mem_toFinset.mpr hnew)
  rw [ServerState.owed, ServerState.owed, hn, hr]
  generalize 2 * (ids.filter fun id => ¬ s.recentIds.Seen id).card = y
  calc s.neighbours.length + s.neighbours.length * ((js \ t.names.toFinset).card + y)
      = s.neighbours.length * (((js \ t.names.toFinset).card + 1) + y) := by ring
    _ ≤ s.neighbours.length * ((js \ s.names.toFinset).card + y) :=
      Nat.mul_le_mul_left _ (Nat.add_le_add_right hlt _)

/-- A new identifier pays for one say to each neighbour. -/
theorem owed_new_id {id : Id} {w : RecentIds} (js : Finset Name)
    (hw : s.recentIds.record id = .ok w) (hid : id ∈ ids)
    (hold : ¬ s.recentIds.Seen id) :
    s.neighbours.length * 2 + (s.recorded w).owed js ids ≤ s.owed js ids := by
  have hlt : (ids.filter fun x => ¬ w.Seen x).card <
      (ids.filter fun x => ¬ s.recentIds.Seen x).card := by
    refine Finset.card_lt_card (Finset.ssubset_iff_of_subset ?_ |>.mpr ⟨id, ?_, ?_⟩)
    · exact Finset.monotone_filter_right _
        fun x _ h => mt (fun hx => RecentIds.seen_of_record hw (Or.inl hx)) h
    · exact Finset.mem_filter.mpr ⟨hid, hold⟩
    · exact fun h => (Finset.mem_filter.mp h).2 (RecentIds.seen_of_record hw (Or.inr rfl))
  have hn : (s.recorded w).neighbours = s.neighbours := rfl
  have hc : (s.recorded w).names = s.names := rfl
  have hr : (s.recorded w).recentIds = w := rfl
  rw [ServerState.owed, ServerState.owed, hn, hc, hr]
  generalize (js \ s.names.toFinset).card = x
  calc s.neighbours.length * 2 +
        s.neighbours.length * (x + 2 * (ids.filter fun id => ¬ w.Seen id).card)
      = s.neighbours.length * (x + 2 * ((ids.filter fun id => ¬ w.Seen id).card + 1)) := by ring
    _ ≤ s.neighbours.length * (x + 2 * (ids.filter fun id => ¬ s.recentIds.Seen id).card) :=
      Nat.mul_le_mul_left _ (Nat.add_le_add_left (Nat.mul_le_mul_left _ hlt) _)

theorem emission_join_lt (s : ServerState) (a b : Sockaddr) {c : Name} (now : ℤ) (hj : c ∈ js) :
    weight (packets b (reqServJoin s a c now).out) +
        (Node.ofResult (reqServJoin s a c now).result).owed js ids < 1 + s.owed js ids := by
  rcases reqServJoin_cases s a c now with ⟨f, hf, ho⟩ | ⟨srvr, srvr', s₁, hs, hn, rfl, hk⟩
  · rw [hf, ho, packets_nil, weight_nil]
    show 0 + 0 < _
    omega
  have haddr := (addr_noteJoin hn).trans (findServerAddress_some hs).2
  rcases hk with ⟨-, hr, ho⟩ | ⟨hc, chnls, hadd, hr, ho⟩
  · rw [hr, ho, packets_nil, weight_nil]
    have hle := owed_le js ids
      (t := { s with cnnctSrvrs := storeServer s.cnnctSrvrs a srvr' })
      (neighbours_storeServer haddr rfl) (fun _ h => h) fun _ h => h
    exact Nat.add_lt_add_of_lt_of_le Nat.one_pos hle
  · rw [hr, ho, packets_map_s2s, weight_map, S2S.weight, Nat.mul_one]
    have hnames : chnlNames chnls = s.names ++ [c] := chnlNames_addChnl hadd
    have hle := owed_new_channel ids (c := c)
      (t := { s with cnnctSrvrs := storeServer s.cnnctSrvrs a srvr', channels := chnls })
      (neighbours_storeServer haddr rfl) rfl
      (fun d hd => by rw [ServerState.names, hnames]; exact List.mem_append_left _ hd)
      hj hc (by rw [ServerState.names, hnames]; simp)
    exact Nat.lt_one_add_iff.mpr hle

theorem emission_leave_lt (s : ServerState) (a b : Sockaddr) (c : Name) :
    weight (packets b (reqServLeave s a c).out) +
        (Node.ofResult (reqServLeave s a c).result).owed js ids < 1 + s.owed js ids := by
  obtain ⟨ho, ⟨f, hf, -⟩ | ⟨srvr, hs, -, hr⟩⟩ := reqServLeave_cases s a c
  · rw [hf, ho, packets_nil, weight_nil]
    show 0 + 0 < _
    omega
  · rw [hr, ho, packets_nil, weight_nil]
    generalize hsv : srvr.setNumChnnls (srvr.numChnnls - 1) = srvr'
    have haddr : srvr'.addr = a := by
      rw [← hsv]
      exact (findServerAddress_some hs).2
    have hle := owed_le js ids
      (t := { s with cnnctSrvrs := storeServer s.cnnctSrvrs a srvr' })
      (neighbours_storeServer haddr rfl) (fun _ h => h) fun _ h => h
    exact Nat.add_lt_add_of_lt_of_le Nat.one_pos hle

theorem emission_say_lt (s : ServerState) (a b : Sockaddr) {m : SayS2S} (hi : m.id ∈ ids) :
    weight (packets b (reqServSay s a m).out) +
        (Node.ofResult (reqServSay s a m).result).owed js ids < 2 + s.owed js ids := by
  generalize hx : reqServSay s a m = r
  cases hx ▸ reqServSay_cases s a m with
  | fault f hf ho =>
    rw [hf, packets_eq_nil fun d hd => ⟨_, ho d hd⟩, weight_nil]
    show 0 + 0 < _
    omega
  | duplicate =>
    show 1 + s.owed js ids < _
    omega
  | prune hd hids =>
    show 1 + (s.recorded _).owed js ids < _
    have := owed_new_id js hids hi (hasId_eq_ok_false.mp hd)
    omega
  | forward hd hids hf hk hl =>
    rw [packets_append, packets_eq_nil fun d hd => ⟨_, deliverLoop_out_text hd⟩, List.nil_append,
      forwardPackets, packets_map_s2s, weight_map]
    show _ * 2 + (s.recorded _).owed js ids < _
    have := owed_new_id js hids hi (hasId_eq_ok_false.mp hd)
    have hlen : (s.cnnctSrvrs.filter fun srvr => (findChannelServer srvr m.reqChannel).isSome &&
        !addrCmp srvr.addr a).length ≤ s.neighbours.length := by
      rw [ServerState.neighbours, List.length_map]
      exact List.length_filter_le _ _
    omega

/-- **What a packet makes a server emit is paid for** by the packet itself and by what the server
owes less. -/
theorem emission_lt (s : ServerState) (a b : Sockaddr) (m : S2S) (drawn : Id) (now : ℤ)
    (hj : ∀ c, m.joinName = some c → c ∈ js) (hi : ∀ id, m.sayId = some id → id ∈ ids) :
    weight (packets b (react s (.datagram a (.s2s m) drawn now)).out) +
        (Node.ofResult (react s (.datagram a (.s2s m) drawn now)).result).owed js ids <
      m.weight + s.owed js ids := by
  cases m with
  | join c => exact emission_join_lt s a b now (hj c rfl)
  | leave c => exact emission_leave_lt s a b c
  | say m => exact emission_say_lt s a b (hi m.id rfl)

end OneServer

/-! ### What is on the wires afterwards -/

/-- Says are sent on under their identifiers. -/
theorem sayId_of_mem_packets {s : ServerState} {a b : Sockaddr} {m : S2S} {drawn : Id} {now : ℤ}
    {q : Packet} {id : Id} (hq : q ∈ packets b (react s (.datagram a (.s2s m) drawn now)).out)
    (hid : q.msg.sayId = some id) : m.sayId = some id := by
  obtain ⟨-, hd⟩ := mem_packets.mp hq
  cases hx : q.msg with
  | join c => rw [hx] at hid; cases hid
  | leave c => rw [hx] at hid; cases hid
  | say x =>
    rw [hx] at hd hid
    cases hid
    have hi := sayId_of_mem_out hd
    cases m with
    | join c => cases hi
    | leave c => cases hi
    | say y => exact hi

namespace Net

variable {n n' : Net ι}

theorem mem_joining {c : Name} : c ∈ n.joining ↔ ∃ p ∈ n.flight, p.msg.joinName = some c := by
  simp [joining]

theorem mem_saying {id : Id} : id ∈ n.saying ↔ ∃ p ∈ n.flight, p.msg.sayId = some id := by
  simp [saying]

end Net

/-- What a sum loses at one place, when it grows nowhere else. -/
theorem sum_add_le_sum_add [Fintype ι] [DecidableEq ι] {f g : ι → ℕ} (i : ι)
    (h : ∀ j, j ≠ i → f j ≤ g j) : (∑ j, f j) + g i ≤ (∑ j, g j) + f i := by
  have hf : f i + ∑ j ∈ Finset.univ.erase i, f j = ∑ j, f j :=
    Finset.add_sum_erase _ _ (Finset.mem_univ i)
  have hg : g i + ∑ j ∈ Finset.univ.erase i, g j = ∑ j, g j :=
    Finset.add_sum_erase _ _ (Finset.mem_univ i)
  have hle : ∑ j ∈ Finset.univ.erase i, f j ≤ ∑ j ∈ Finset.univ.erase i, g j :=
    Finset.sum_le_sum fun j hj => h j (Finset.ne_of_mem_erase hj)
  omega

section Delivery

variable [DecidableEq ι] {addr : ι ↪ Sockaddr} {n n' : Net ι} {i : ι} {p : Packet} {now : ℤ}

/-- A delivery announces no channel that was not announced already. -/
theorem Net.joining_deliver_subset (addr : ι ↪ Sockaddr) (i : ι) (now : ℤ) (hp : p ∈ n.flight) :
    ((n.take p).act addr i (.datagram p.src (.s2s p.msg) 0 now)).joining ⊆ n.joining := by
  intro c hc
  obtain ⟨q, hq, hc⟩ := Net.mem_joining.mp hc
  rcases Net.mem_flight_act hq with hq | ⟨s, -, hq⟩
  · exact Net.mem_joining.mpr ⟨q, List.mem_of_mem_erase hq, hc⟩
  · exact Net.mem_joining.mpr ⟨p, hp, joinName_of_mem_packets hq hc⟩

/-- A delivery sends no identifier that was not in flight already. -/
theorem Net.saying_deliver_subset (addr : ι ↪ Sockaddr) (i : ι) (now : ℤ) (hp : p ∈ n.flight) :
    ((n.take p).act addr i (.datagram p.src (.s2s p.msg) 0 now)).saying ⊆ n.saying := by
  intro id hid
  obtain ⟨q, hq, hid⟩ := Net.mem_saying.mp hid
  rcases Net.mem_flight_act hq with hq | ⟨s, -, hq⟩
  · exact Net.mem_saying.mpr ⟨q, List.mem_of_mem_erase hq, hid⟩
  · exact Net.mem_saying.mpr ⟨p, hp, sayId_of_mem_packets hq hid⟩

/-- **Every delivery lowers the potential.** -/
theorem potential_deliver_lt [Fintype ι] (h : Net.step addr n (.deliver i p now) = some n') :
    n'.potential < n.potential := by
  simp only [Net.step] at h
  split at h
  case isFalse => cases h
  next hp =>
  cases h
  have hjoin := Net.joining_deliver_subset addr i now hp.1
  have hsay := Net.saying_deliver_subset addr i now hp.1
  have hweight : weight n.flight = p.msg.weight + weight (n.take p).flight := by
    rw [weight, ((List.perm_cons_erase hp.1).map _).sum_eq]
    rfl
  have hpos : 0 < p.msg.weight := by cases p.msg <;> exact Nat.succ_pos _
  rcases (n.take p).act_cases addr i (.datagram p.src (.s2s p.msg) 0 now) with
    ⟨f, -, ha⟩ | ⟨s, hs, hi, hj, hf, -⟩
  · -- the packet is thrown away
    rw [ha] at hjoin hsay
    rw [ha, Net.potential, Net.potential, hweight]
    have hle : ∑ j, ((n.take p).node j).owed (n.take p).joining (n.take p).saying ≤
        ∑ j, (n.node j).owed n.joining n.saying :=
      Finset.sum_le_sum fun j _ => Node.owed_mono _ hjoin hsay
    omega
  · generalize (n.take p).act addr i (.datagram p.src (.s2s p.msg) 0 now) = m at *
    have hs : n.node i = .running s := hs
    have hemit := emission_lt s p.src (addr i) p.msg 0 now
      (fun c hc => Net.mem_joining.mpr ⟨p, hp.1, hc⟩)
      fun id hid => Net.mem_saying.mpr ⟨p, hp.1, hid⟩
    have hmono : (m.node i).owed m.joining m.saying ≤ (m.node i).owed n.joining n.saying :=
      Node.owed_mono _ hjoin hsay
    have hsum := sum_add_le_sum_add (f := fun j => (m.node j).owed m.joining m.saying)
      (g := fun j => (n.node j).owed n.joining n.saying) i fun j hji => by
        simp only [hj j hji]
        exact Node.owed_mono _ hjoin hsay
    rw [hi] at hmono hsum
    rw [hs] at hsum
    change _ + s.owed _ _ ≤ _ at hsum
    rw [Net.potential, Net.potential, hf, weight_append, hweight]
    omega

end Delivery

/-- **No message storm.** In any network and from any state, a delivery lowers the potential; so no
sequence of deliveries is longer than the potential it starts with, and none goes on for ever. -/
theorem deliveries_end [Fintype ι] [DecidableEq ι] (addr : ι ↪ Sockaddr) :
    (∀ (n n' : Net ι) (a : Action ι), a.isDelivery → Net.step addr n a = some n' →
        n'.potential < n.potential) ∧
      (∀ (n n' : Net ι) (acts : List (Action ι)),
        Run (Net.step addr) (fun _ a => a.isDelivery) n acts n' →
          acts.length + n'.potential ≤ n.potential) ∧
      ¬ ∃ (ns : ℕ → Net ι) (acts : ℕ → Action ι), ∀ k, (acts k).isDelivery ∧
        Net.step addr (ns k) (acts k) = some (ns (k + 1)) := by
  have hlt : ∀ (n n' : Net ι) (a : Action ι), a.isDelivery → Net.step addr n a = some n' →
      n'.potential < n.potential := by
    intro n n' a ha h
    cases a <;> cases ha
    exact potential_deliver_lt h
  refine ⟨hlt, fun n n' acts h => h.length_add_le fun n a n' ha h => hlt n n' a ha h, ?_⟩
  rintro ⟨ns, acts, h⟩
  have hle : ∀ k, (ns k).potential + k ≤ (ns 0).potential := by
    intro k
    induction k with
    | zero => exact Nat.le_refl _
    | succ k ih =>
      have := hlt _ _ _ (h k).1 (h k).2
      omega
  have := hle ((ns 0).potential + 1)
  omega

open Three in
/-- A say reaches the middle of the line. -/
theorem deliveries_end_on_line :
    ∃ n', Net.step addr { lineStart with flight := [⟨addr 0, addr 1, sayBy 0 common 1⟩] }
        (deliver 0 1 (sayBy 0 common 1)) = some n' ∧
      n'.potential <
        Net.potential { lineStart with flight := [⟨addr 0, addr 1, sayBy 0 common 1⟩] } :=
  ⟨_, rfl, (deliveries_end addr).1 _ _ (deliver 0 1 (sayBy 0 common 1)) rfl rfl⟩

end DuckChat
