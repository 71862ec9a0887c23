import DuckChat.Server
import DuckChat.Lib.Run
import Mathlib.Logic.Embedding.Basic
import Mathlib.Logic.Function.Basic

/-!
# Networks of servers

Servers are named by a type `ι` and told apart by their addresses. The state of a network is the
state of each server, the packets in flight between them and a log of what was done so far. A
server that faults stops; what is sent to it afterwards is taken off the wire and ignored, like the
packets sent to a process that has died.

The order of the packets in flight means nothing by itself: any of them may be delivered next.
First-in-first-out links are a condition on the deliveries, `Net.firstOnLink`.

Clients are not parties here: any request may come from any address at any time, and what they are
sent is only in the log. Packets are lost and doubled, but not changed, and they have the address of
the server that sent them. No server is started anew.

## Main definitions

* `Packet`, `Node`, `Event`, `Net`
* `Net.act` — one input at one server
* `Action`, `Net.step` — everything that can happen
-/

set_option autoImplicit false

namespace DuckChat

/-- A server-to-server packet on the wire. -/
structure Packet where
  src : Sockaddr
  dst : Sockaddr
  msg : S2S
deriving DecidableEq

/-- A server process. -/
inductive Node where
  | running (s : ServerState)
  | faulted (f : Fault)
deriving DecidableEq

/-- One input handled at one server, and the datagrams it sent meanwhile. -/
structure Event (ι : Type) where
  server : ι
  input : Input
  sent : List Datagram

/-- A network: the servers, the packets in flight, and the events so far, the latest first. -/
structure Net (ι : Type) where
  node : ι → Node
  flight : List Packet
  log : List (Event ι)

/-- What can happen in a network. -/
inductive Action (ι : Type) where
  /-- A client's datagram reaches a server; `drawn` is the number `gen_rand` returns for a say. -/
  | client (i : ι) (clientAddr : Sockaddr) (rq : ClientRequest) (drawn : Id) (now : ℤ)
  | deliver (i : ι) (p : Packet) (now : ℤ)
  | timeouts (i : ι) (now : ℤ)
  | renewal (i : ι) (now : ℤ)
  | lose (p : Packet)
  | duplicate (p : Packet)

/-- The server-to-server packets among the datagrams sent from an address. -/
def packets (src : Sockaddr) (sent : List Datagram) : List Packet :=
  sent.filterMap fun d =>
    match d.payload with
    | .text _ => none
    | .s2s m => some ⟨src, d.dest, m⟩

/-- How a process goes on after an input. -/
def Node.ofResult : Except Fault ServerState → Node
  | .ok s => .running s
  | .error f => .faulted f

namespace Net

variable {ι : Type} [DecidableEq ι]

/-- One input at one server. -/
def act (addr : ι ↪ Sockaddr) (n : Net ι) (i : ι) (inp : Input) : Net ι :=
  match n.node i with
  | .faulted _ => n
  | .running s =>
      { node := Function.update n.node i (Node.ofResult (react s inp).result)
        flight := n.flight ++ packets (addr i) (react s inp).out
        log := ⟨i, inp, (react s inp).out⟩ :: n.log }

/-- Taking a packet off the wire. -/
def take (n : Net ι) (p : Packet) : Net ι := { n with flight := n.flight.erase p }

omit [DecidableEq ι] in
@[simp] theorem take_node (n : Net ι) (p : Packet) : (n.take p).node = n.node := rfl

/-- One action. -/
def step (addr : ι ↪ Sockaddr) (n : Net ι) : Action ι → Option (Net ι)
  | .client i clientAddr rq drawn now =>
      some (n.act addr i (.datagram clientAddr (.client rq) drawn now))
  | .deliver i p now =>
      if p ∈ n.flight ∧ p.dst = addr i then
        some ((n.take p).act addr i (.datagram p.src (.s2s p.msg) 0 now))
      else none
  | .timeouts i now => some (n.act addr i (.timeouts now))
  | .renewal i now => some (n.act addr i (.renewal now))
  | .lose p => if p ∈ n.flight then some (n.take p) else none
  | .duplicate p => if p ∈ n.flight then some { n with flight := p :: n.flight } else none

/-- The network at start: server `i` is given the addresses `nbrs i`. -/
def start (nbrs : ι → List Sockaddr) (unset now : ι → ℤ) : Net ι where
  node i := .running (ServerState.start (nbrs i) (unset i) (now i))
  flight := []
  log := []

end Net

end DuckChat
