import DuckChat.ServerRules
import Mathlib.Algebra.Ring.Nat
import Mathlib.Data.Fin.VecNotation
import Mathlib.Data.Fintype.Pi

/-!
# One step of a network

An action is one input at one server, or a change of the wires alone. The lemmas here say which
servers, packets and log entries are touched, so that an invariant of networks is proved from what
a single server can do.

## Main definitions

* `Net.Holds`, `Net.Lists`, `Net.loggedIn` — what a running server holds, lists for a neighbour,
  and knows of clients
* `Topology` — servers with symmetric neighbour lists
* `Event.sayId`, `Event.sendsText`, `Event.sendsSay` — what a log entry is about

## Main results

* `Net.act_cases`, `Net.exists_of_act_running` — one input at one server
* `Net.step_cases` — every action is an input at a server or leaves the servers alone
* `Net.faulted_of_step` — a faulted server stays as it is
-/

set_option autoImplicit false

namespace DuckChat

theorem mem_packets {src : Sockaddr} {xs : List Datagram} {p : Packet} :
    p ∈ packets src xs ↔ p.src = src ∧ (⟨p.dst, .s2s p.msg⟩ : Datagram) ∈ xs := by
  obtain ⟨ps, pd, pm⟩ := p
  constructor
  · intro h
    obtain ⟨⟨d, x⟩, hd, he⟩ := List.mem_filterMap.mp h
    cases x with
    | text t => cases he
    | s2s m => cases he; exact ⟨rfl, hd⟩
  · rintro ⟨rfl, h⟩
    exact List.mem_filterMap.mpr ⟨_, h, rfl⟩

/-- A packet makes a server send only joins of the channel it announces. -/
theorem joinName_of_mem_packets {s : ServerState} {a b : Sockaddr} {m : S2S} {drawn : Id} {now : ℤ}
    {p : Packet} (h : p ∈ packets b (react s (.datagram a (.s2s m) drawn now)).out) {c : Name}
    (hc : p.msg.joinName = some c) : m.joinName = some c := by
  obtain ⟨-, h⟩ := mem_packets.mp h
  cases m with
  | join d =>
    change _ ∈ (reqServJoin s a d now).out at h
    rcases reqServJoin_cases s a d now with
      ⟨f, -, ho⟩ | ⟨_, _, _, -, -, -, ⟨-, -, ho⟩ | ⟨-, _, -, -, ho⟩⟩
      <;> rw [ho] at h
    · cases h
    · cases h
    · obtain ⟨_, -, hd⟩ := List.mem_map.mp h
      have hm := congrArg Datagram.payload hd
      simp only [Payload.s2s.injEq] at hm
      rw [← hm] at hc
      exact hc
  | leave d =>
    change _ ∈ (reqServLeave s a d).out at h
    rw [(reqServLeave_cases s a d).1] at h
    cases h
  | say x =>
    change _ ∈ (reqServSay s a x).out at h
    generalize hx : reqServSay s a x = r at h
    cases hx ▸ reqServSay_cases s a x with
    | fault f hf ho => cases ho _ h
    | duplicate =>
      have hm := congrArg Datagram.payload (List.mem_singleton.mp h)
      simp only [Payload.s2s.injEq] at hm
      rw [hm] at hc
      cases hc
    | prune =>
      have hm := congrArg Datagram.payload (List.mem_singleton.mp h)
      simp only [Payload.s2s.injEq] at hm
      rw [hm] at hc
      cases hc
    | forward =>
      rcases List.mem_append.mp h with h | h
      · cases deliverLoop_out_text h
      · obtain ⟨_, -, hd⟩ := List.mem_map.mp h
        have hm := congrArg Datagram.payload hd
        simp only [Payload.s2s.injEq] at hm
        rw [← hm] at hc
        cases hc

/-- The process has not faulted. -/
def Node.isRunning : Node → Bool
  | .running _ => true
  | .faulted _ => false

theorem Node.exists_of_isRunning {nd : Node} (h : nd.isRunning) : ∃ s, nd = .running s := by
  cases nd with
  | running s => exact ⟨s, rfl⟩
  | faulted f => cases h

namespace Net

variable {ι : Type}

/-- A running server holds a channel. -/
def Holds (n : Net ι) (i : ι) (c : Name) : Prop := ∃ s, n.node i = .running s ∧ c ∈ s.names

/-- A running server lists a channel in its table for the neighbour with an address. -/
def Lists (n : Net ι) (i : ι) (a : Sockaddr) (c : Name) : Prop :=
  ∃ s, n.node i = .running s ∧ c ∈ s.subsOf a

instance (n : Net ι) (i : ι) (c : Name) : Decidable (n.Holds i c) :=
  match h : n.node i with
  | .running s =>
      decidable_of_iff (c ∈ s.names)
        ⟨fun hc => ⟨s, h, hc⟩, fun ⟨t, ht, hc⟩ => by rw [h] at ht; cases ht; exact hc⟩
  | .faulted _ => isFalse fun ⟨t, ht, _⟩ => by rw [h] at ht; cases ht

instance (n : Net ι) (i : ι) (a : Sockaddr) (c : Name) : Decidable (n.Lists i a c) :=
  match h : n.node i with
  | .running s =>
      decidable_of_iff (c ∈ s.subsOf a)
        ⟨fun hc => ⟨s, h, hc⟩, fun ⟨t, ht, hc⟩ => by rw [h] at ht; cases ht; exact hc⟩
  | .faulted _ => isFalse fun ⟨t, ht, _⟩ => by rw [h] at ht; cases ht

/-- A running server knows a user with the address. -/
def loggedIn (n : Net ι) (i : ι) (a : Sockaddr) : Bool :=
  match n.node i with
  | .running s => (findUser s.allUsers a).isSome
  | .faulted _ => false

/-- An entry of the channel belongs to a user with the address. -/
def isMember (n : Net ι) (i : ι) (a : Sockaddr) (c : Name) : Bool :=
  match n.node i with
  | .running s => (s.usersOf c).any (hasUser fun u => addrCmp u.address a)
  | .faulted _ => false

/-- The channel has an entry. -/
def hasMember (n : Net ι) (i : ι) (c : Name) : Bool :=
  match n.node i with
  | .running s => s.usersOf c ≠ []
  | .faulted _ => false

/-- The server has not recorded the identifier. -/
def isFresh (n : Net ι) (u : ι) (id : Id) : Bool :=
  match n.node u with
  | .running s => id ∉ s.recentIds.slots
  | .faulted _ => false

theorem loggedIn_iff {n : Net ι} {i : ι} {s : ServerState} {a : Sockaddr}
    (h : n.node i = .running s) : n.loggedIn i a = (findUser s.allUsers a).isSome := by
  rw [loggedIn, h]

theorem hasMember_iff {n : Net ι} {i : ι} {s : ServerState} {c : Name}
    (h : n.node i = .running s) : n.hasMember i c ↔ s.usersOf c ≠ [] := by
  rw [hasMember, h]
  exact decide_eq_true_iff

theorem isFresh_iff {n : Net ι} {i : ι} {s : ServerState} (id : Id)
    (h : n.node i = .running s) : n.isFresh i id ↔ id ∉ s.recentIds.slots := by
  rw [isFresh, h]
  exact decide_eq_true_iff

theorem exists_of_isMember {n : Net ι} {i : ι} {s : ServerState} {a : Sockaddr} {c : Name}
    (h : n.node i = .running s) (hm : n.isMember i a c = true) :
    ∃ chnl u, findChannel s.channels c = some chnl ∧ some u ∈ chnl.entries ∧ u.address = a := by
  simp only [isMember, h, List.any_eq_true] at hm
  obtain ⟨e, he, hu⟩ := hm
  rw [ServerState.usersOf] at he
  split at he
  · next chnl hf =>
    cases e with
    | none => cases hu
    | some u => exact ⟨chnl, u, hf, he, addrCmp_iff.mp hu⟩
  · cases he

section Views

variable {n n' : Net ι} {i : ι} {s : ServerState} {a : Sockaddr} {c : Name}

theorem holds_iff (h : n.node i = .running s) : n.Holds i c ↔ c ∈ s.names := by
  constructor
  · rintro ⟨t, ht, hc⟩
    rw [h] at ht
    cases ht
    exact hc
  · exact fun hc => ⟨s, h, hc⟩

theorem lists_iff (h : n.node i = .running s) : n.Lists i a c ↔ c ∈ s.subsOf a := by
  constructor
  · rintro ⟨t, ht, hc⟩
    rw [h] at ht
    cases ht
    exact hc
  · exact fun hc => ⟨s, h, hc⟩

theorem holds_congr (h : n'.node i = n.node i) : n'.Holds i c ↔ n.Holds i c := by
  rw [Holds, Holds, h]

theorem lists_congr (h : n'.node i = n.node i) : n'.Lists i a c ↔ n.Lists i a c := by
  rw [Lists, Lists, h]

theorem hasMember_congr (h : n'.node i = n.node i) : n'.hasMember i c = n.hasMember i c := by
  rw [hasMember, hasMember, h]

theorem isFresh_congr {id : Id} (h : n'.node i = n.node i) : n'.isFresh i id = n.isFresh i id := by
  rw [isFresh, isFresh, h]

end Views

variable [DecidableEq ι] {addr : ι ↪ Sockaddr} {n n' : Net ι} {i j : ι} {inp : Input}
  {s : ServerState}

theorem act_of_running (h : n.node i = .running s) :
    n.act addr i inp =
      { node := Function.update n.node i (Node.ofResult (react s inp).result)
        flight := n.flight ++ packets (addr i) (react s inp).out
        log := ⟨i, inp, (react s inp).out⟩ :: n.log } := by
  rw [act, h]

theorem act_of_faulted {f : Fault} (h : n.node i = .faulted f) : n.act addr i inp = n := by
  rw [act, h]

/-- **One input at one server.** A faulted server ignores it. -/
theorem act_cases (n : Net ι) (addr : ι ↪ Sockaddr) (i : ι) (inp : Input) :
    (∃ f, n.node i = .faulted f ∧ n.act addr i inp = n) ∨
      ∃ s, n.node i = .running s ∧
        (n.act addr i inp).node i = Node.ofResult (react s inp).result ∧
        (∀ j, j ≠ i → (n.act addr i inp).node j = n.node j) ∧
        (n.act addr i inp).flight = n.flight ++ packets (addr i) (react s inp).out ∧
        (n.act addr i inp).log = ⟨i, inp, (react s inp).out⟩ :: n.log := by
  cases h : n.node i with
  | faulted f => exact Or.inl ⟨f, rfl, act_of_faulted h⟩
  | running s =>
    rw [act_of_running h]
    exact Or.inr
      ⟨s, rfl, Function.update_self .., fun j hj => Function.update_of_ne hj .., rfl, rfl⟩

/-- A server that runs after an input ran before it and ended well. -/
theorem exists_of_act_running {s' : ServerState} (h : (n.act addr i inp).node i = .running s') :
    ∃ s, n.node i = .running s ∧ (react s inp).result = .ok s' := by
  rcases n.act_cases addr i inp with ⟨f, hf, ha⟩ | ⟨s, hs, hi, -⟩
  · rw [ha, hf] at h
    cases h
  · refine ⟨s, hs, ?_⟩
    rw [hi] at h
    cases hr : (react s inp).result with
    | error f =>
      rw [hr] at h
      cases h
    | ok t =>
      rw [hr] at h
      cases h
      rfl

/-- What is in flight after an input was so before, or was sent. -/
theorem mem_flight_act {q : Packet} (h : q ∈ (n.act addr i inp).flight) :
    q ∈ n.flight ∨ ∃ s, n.node i = .running s ∧ q ∈ packets (addr i) (react s inp).out := by
  rcases n.act_cases addr i inp with ⟨f, -, ha⟩ | ⟨s, hs, -, -, hf, -⟩
  · rw [ha] at h
    exact Or.inl h
  · rw [hf] at h
    exact (List.mem_append.mp h).imp_right fun h => ⟨s, hs, h⟩

theorem node_act_of_ne (h : j ≠ i) : (n.act addr i inp).node j = n.node j := by
  rcases n.act_cases addr i inp with ⟨f, -, ha⟩ | ⟨s, -, -, ha, -⟩
  · rw [ha]
  · exact ha j h

/-- **Every action is an input at one server, or touches the wires only.** A packet that is handled
was in flight and meant for the server. -/
theorem step_cases {a : Action ι} (h : step addr n a = some n') :
    (∃ (n₀ : Net ι) (i : ι) (inp : Input), n₀.node = n.node ∧ n₀.log = n.log ∧
        (∀ p ∈ n₀.flight, p ∈ n.flight) ∧
        (∀ src m drawn now, inp = .datagram src (.s2s m) drawn now →
          ⟨src, addr i, m⟩ ∈ n.flight) ∧
        n' = n₀.act addr i inp) ∨
      (n'.node = n.node ∧ n'.log = n.log ∧ ∀ p ∈ n'.flight, p ∈ n.flight) := by
  cases a with
  | client i clientAddr rq drawn now =>
    cases h
    refine Or.inl ⟨n, i, _, rfl, rfl, fun p hp => hp, ?_, rfl⟩
    intro _ _ _ _ he
    cases he
  | deliver i p now =>
    simp only [step] at h
    split at h
    · next hp =>
      cases h
      refine Or.inl ⟨n.take p, i, _, rfl, rfl, fun q hq => List.mem_of_mem_erase hq, ?_, rfl⟩
      intro _ _ _ _ he
      cases he
      rw [← hp.2]
      exact hp.1
    · cases h
  | timeouts i now =>
    cases h
    refine Or.inl ⟨n, i, _, rfl, rfl, fun p hp => hp, ?_, rfl⟩
    intro _ _ _ _ he
    cases he
  | renewal i now =>
    cases h
    refine Or.inl ⟨n, i, _, rfl, rfl, fun p hp => hp, ?_, rfl⟩
    intro _ _ _ _ he
    cases he
  | lose p =>
    simp only [step] at h
    split at h
    · cases h
      exact Or.inr ⟨rfl, rfl, fun q hq => List.mem_of_mem_erase hq⟩
    · cases h
  | duplicate p =>
    simp only [step] at h
    split at h
    · next hp =>
      cases h
      refine Or.inr ⟨rfl, rfl, fun q hq => ?_⟩
      rcases List.mem_cons.mp hq with rfl | hq
      · exact hp
      · exact hq
    · cases h

theorem faulted_act {f : Fault} (h : n.node j = .faulted f) :
    (n.act addr i inp).node j = .faulted f := by
  by_cases hj : j = i
  · subst hj
    rw [act_of_faulted h]
    exact h
  · rw [node_act_of_ne hj]
    exact h

theorem faulted_of_step {a : Action ι} {f : Fault} (h : step addr n a = some n')
    (hf : n.node i = .faulted f) : n'.node i = .faulted f := by
  rcases step_cases h with ⟨n₀, j, inp, hnode, -, -, -, rfl⟩ | ⟨hnode, -⟩
  · exact faulted_act (by rw [hnode]; exact hf)
  · rw [hnode]
    exact hf

end Net

/-- Servers with distinct addresses and with neighbour lists that are symmetric and list each
neighbour once. -/
structure Topology (ι : Type) where
  addr : ι ↪ Sockaddr
  nbrs : ι → List ι
  nodup : ∀ i, (nbrs i).Nodup
  symm : ∀ i j, j ∈ nbrs i → i ∈ nbrs j

namespace Topology

variable {ι : Type}

/-- The addresses that a server is given. -/
def nbrAddrs (T : Topology ι) (i : ι) : List Sockaddr := (T.nbrs i).map T.addr

/-- The network at start. -/
def start (T : Topology ι) (unset now : ι → ℤ) : Net ι := Net.start T.nbrAddrs unset now

theorem mem_nbrAddrs {T : Topology ι} {i j : ι} : T.addr j ∈ T.nbrAddrs i ↔ j ∈ T.nbrs i := by
  simp [nbrAddrs]

end Topology

/-- A join of the channel is in flight from one server to another. -/
def Net.JoinInFlight {ι : Type} (T : Topology ι) (n : Net ι) (u v : ι) (c : Name) : Prop :=
  ⟨T.addr u, T.addr v, .join c⟩ ∈ n.flight

instance {ι : Type} (T : Topology ι) (n : Net ι) (u v : ι) (c : Name) :
    Decidable (n.JoinInFlight T u v c) :=
  inferInstanceAs (Decidable (_ ∈ n.flight))

/-- The action is the delivery of a packet. -/
def Action.isDelivery {ι : Type} : Action ι → Bool
  | .deliver _ _ _ => true
  | _ => false

/-! ### Log entries -/

/-- The datagram is a `TXT_SAY`. -/
def Datagram.isText (d : Datagram) : Bool :=
  match d.payload with
  | .text (.say _ _ _) => true
  | _ => false

/-- The datagram is a `REQ_SERV_SAY` with the identifier. -/
def Datagram.isSay (id : Id) (d : Datagram) : Bool :=
  match d.payload with
  | .s2s (.say m) => m.id == id
  | _ => false

namespace Event

variable {ι : Type}

/-- The identifier of the say that was handled. -/
def sayId (e : Event ι) : Option Id := e.input.sayId

/-- The identifier that was drawn. -/
def drawnId (e : Event ι) : Option Id := e.input.drawnId

/-- A say was given to a local user. -/
def sendsText (e : Event ι) : Bool := e.sent.any Datagram.isText

/-- A say with the identifier was sent to a server. -/
def sendsSay (e : Event ι) (id : Id) : Bool := e.sent.any (Datagram.isSay id)

theorem sendsSay_iff {e : Event ι} {id : Id} :
    e.sendsSay id = true ↔
      ∃ b, ∃ m : SayS2S, (⟨b, .s2s (.say m)⟩ : Datagram) ∈ e.sent ∧ m.id = id := by
  simp only [sendsSay, List.any_eq_true]
  constructor
  · rintro ⟨⟨b, x⟩, hd, hx⟩
    rcases x with t | ⟨c⟩ | ⟨c⟩ | ⟨m⟩
    · cases hx
    · cases hx
    · cases hx
    · exact ⟨b, m, hd, by simpa [Datagram.isSay] using hx⟩
  · rintro ⟨b, m, hd, rfl⟩
    exact ⟨_, hd, by simp [Datagram.isSay]⟩

end Event

/-- The identifiers drawn so far. -/
def Net.drawnIds {ι : Type} (n : Net ι) : List Id := n.log.filterMap Event.drawnId

theorem Net.drawnIds_cons {ι : Type} {n n' : Net ι} {e : Event ι} (h : n'.log = e :: n.log) :
    n'.drawnIds = e.drawnId.toList ++ n.drawnIds := by
  rw [Net.drawnIds, h, List.filterMap_cons, Net.drawnIds]
  cases e.drawnId <;> rfl

/-! ### Three servers

The networks on which hypotheses are shown to be met and statements to fail. -/

namespace Three

instance neZero_servers : NeZero 3 := ⟨Nat.succ_ne_zero 2⟩

/-- The address of a server. -/
def addr : Fin 3 ↪ Sockaddr := ⟨fun i => ⟨10 + i.val.toUInt32, 4000⟩, by decide⟩

/-- A line: server 1 is between 0 and 2. -/
def line : Topology (Fin 3) := ⟨addr, ![[1], [0, 2], [1]], by decide, by decide⟩

/-- A cycle. -/
def triangle : Topology (Fin 3) := ⟨addr, ![[1, 2], [0, 2], [0, 1]], by decide, by decide⟩

/-- The line at start. -/
def lineStart : Net (Fin 3) := line.start (fun _ => 0) fun _ => 0

/-- A channel besides Common. -/
def chnlX : Name := ⟨ascii "x", by decide, by decide⟩

/-- One client for each server. -/
def client (i : Fin 3) : Sockaddr := ⟨20 + i.val.toUInt32, 5000⟩

def username (i : Fin 3) : Username :=
  match i with
  | 0 => ⟨ascii "ann", by decide, by decide⟩
  | 1 => ⟨ascii "bob", by decide, by decide⟩
  | 2 => ⟨ascii "cal", by decide, by decide⟩

def hello : SayText := ⟨ascii "hello", by decide, by decide⟩

/-- The client of server `i` sends a request at time 0. -/
def request (i : Fin 3) (rq : ClientRequest) (drawn : Id) : Action (Fin 3) :=
  .client i (client i) rq drawn 0

/-- The packet from server `i` to server `j` is delivered at time 0. -/
def deliver (i j : Fin 3) (m : S2S) : Action (Fin 3) := .deliver j ⟨addr i, addr j, m⟩ 0

/-- The say to a channel by the client of server `i`, as servers pass it on. -/
def sayBy (i : Fin 3) (c : Name) (id : Id) : S2S := .say ⟨id, username i, c, hello⟩

/-- The first user of a server. -/
def user (i : Fin 3) : User := ⟨0, username i, client i⟩

/-- A server of the line after its client has joined Common. -/
def withUser (i : Fin 3) : ServerState :=
  { ServerState.start (line.nbrAddrs i) 0 0 with
    channels := Table.ofList
      [⟨common, Table.ofList [some (user i)] one_le_MAX_USERS, 0⟩] one_le_MAX_USERS
    allUsers := Table.ofList [user i] one_le_MAX_USERS
    heapNext := 1 }

theorem reachable_withUser : Reachable (line.nbrAddrs 1) (withUser 1) :=
  ((Reachable.start 0 0).step (.datagram (client 1) (.client (.login (username 1))) 0 0)
    (by rfl)).step (.datagram (client 1) (.client (.join common)) 0 0) (by rfl)

/-- The clients of all servers log in and join Common. -/
def gather : List (Action (Fin 3)) :=
  [0, 1, 2].flatMap fun i => [request i (.login (username i)) 0, request i (.join common) 0]

/-- A say to Common crosses the line. -/
def sayAcross : List (Action (Fin 3)) :=
  gather ++ [request 0 (.say common hello) 1, deliver 0 1 (sayBy 0 common 1),
    deliver 1 2 (sayBy 0 common 1)]

end Three

end DuckChat
