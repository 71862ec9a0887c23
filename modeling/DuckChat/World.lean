import DuckChat.Console
import DuckChat.Network

/-!
# All programs together

Client programs and servers, with everything that was sent. A client does not look at who writes to
it: `recvfrom` stores the sender's address in `a->server`, where `send_thread` finds the address to
send to. So whoever writes to a client gets its next requests.

What was sent may arrive at any time, any number of times or never. Lines are typed, and read into
the buffer over what stands there. What was typed is kept, and so is what was decoded.

## Main definitions

* `World`, `World.step` — the programs, and what was sent
* `World.sent` — what the servers sent

## Main results

* `run_net` — a run of the world is a run of its network, as long as no server is stopped by a name
  that fills its field
-/

set_option autoImplicit false

namespace DuckChat

/-- A datagram on its way. -/
structure Letter (α : Type) where
  src : Sockaddr
  dst : Sockaddr
  body : α
deriving DecidableEq

/-- The servers, the clients that have started, and where each client sends to. The lines that were
typed are kept, with what `decode_input` was given for each, and what the clients sent; what the
servers sent is in their log. -/
structure World (ι κ : Type) where
  net : Net ι
  client : κ → Option Console
  /-- `a->server`. -/
  server : κ → Sockaddr
  requests : List (Letter ClientMessage)
  typed : κ → List Typed
  decoded : κ → List Line

/-- What can happen. -/
inductive WorldAction (ι κ : Type) where
  /-- A client starts, with a buffer that comes out of `malloc`. -/
  | begin (k : κ) (unset : LineBuffer)
  /-- A line is typed. -/
  | line (k : κ) (l : Typed)
  /-- A client receives something that was sent to it. -/
  | receive (k : κ) (src : Sockaddr)
  /-- What a client sent arrives at a server. -/
  | arrive (i : ι) (m : Letter ClientMessage) (drawn : Id) (now : ℤ)
  /-- The servers among themselves. -/
  | servers (x : Action ι)

/-- A request comes from a client. -/
def Action.isRequest {ι : Type} : Action ι → Bool
  | .client _ _ _ _ _ => true
  | _ => false

/-- What an action is for the servers. -/
def WorldAction.atServers {ι κ : Type} : WorldAction ι κ → Option (Action ι)
  | .arrive i ⟨src, _, .request rq⟩ drawn now => some (.client i src rq drawn now)
  | .servers x => some x
  | _ => none

/-- What arrives is a request. -/
def WorldAction.Plain {ι κ : Type} : WorldAction ι κ → Prop
  | .arrive _ m _ _ => ∃ rq, m.body = .request rq
  | _ => True

/-- `malloc` returns a buffer that is clear. -/
def WorldAction.Fresh {ι κ : Type} : WorldAction ι κ → Prop
  | .begin _ unset => unset = .cleared
  | _ => True

/-- A client after a turn. One that faults sends nothing more. -/
def Console.after (s : Console) (l : Typed) : Console :=
  match (s.turn l).result with
  | .ok s' => s'
  | .error _ => { s with client := { s.client with logout := true } }

/-- A server stops. -/
def Net.stop {ι : Type} [DecidableEq ι] (n : Net ι) (i : ι) (f : Fault) : Net ι :=
  match n.node i with
  | .faulted _ => n
  | .running _ => { n with node := Function.update n.node i (.faulted f) }

namespace World

variable {ι κ : Type} [DecidableEq ι] [DecidableEq κ] (addr : ι ↪ Sockaddr)
  (clientAddr : κ ↪ Sockaddr) (name : κ → Username) (w : World ι κ)

/-- The world at start: each client is told one server. -/
def start (home : κ → ι) (nbrs : ι → List Sockaddr) (unset now : ι → ℤ) : World ι κ where
  net := Net.start nbrs unset now
  client _ := none
  server k := addr (home k)
  requests := []
  typed _ := []
  decoded _ := []

omit [DecidableEq ι] [DecidableEq κ] in
/-- What the servers sent. -/
def sent : List (Letter Payload) :=
  w.net.log.flatMap fun e => e.sent.map fun d => ⟨addr e.server, d.dest, d.payload⟩

/-- A client goes on, and sends messages. -/
def ask (k : κ) (s : Console) (ms : List ClientMessage) : World ι κ :=
  { w with
    client := Function.update w.client k (some s)
    requests := w.requests ++ ms.map fun m => ⟨clientAddr k, w.server k, m⟩ }

/-- A line is typed, and decoded. -/
def note (k : κ) (l : Typed) (buff : Line) : World ι κ :=
  { w with
    typed := Function.update w.typed k (w.typed k ++ [l])
    decoded := Function.update w.decoded k (w.decoded k ++ [buff]) }

/-- What a client sent arrives. A name without its terminator is copied over the end of a field. -/
def hear (i : ι) (a : Sockaddr) (m : ClientMessage) (drawn : Id) (now : ℤ) : Option (World ι κ) :=
  match m with
  | .request rq => (Net.step addr w.net (.client i a rq drawn now)).map fun n => { w with net := n }
  | .fullWho _ => some { w with net := w.net.stop i (.store .above) }

/-- One action. Whatever was sent may arrive, at any time and any number of times. -/
def step : WorldAction ι κ → Option (World ι κ)
  | .begin k unset =>
      match w.client k with
      | some _ => none
      | none => some
          (w.ask clientAddr k (Console.start unset) ((firstRequests (name k)).map .request))
  | .line k l =>
      match w.client k with
      | none => none
      | some s =>
          if s.client.logout then none
          else some ((w.ask clientAddr k (s.after l) (s.turn l).out).note k l (s.buff.line l))
  | .receive k src =>
      if (∃ m ∈ w.sent addr, m.src = src ∧ m.dst = clientAddr k) ∨
          ∃ m ∈ w.requests, m.src = src ∧ m.dst = clientAddr k then
        some { w with server := Function.update w.server k src }
      else none
  | .arrive i m drawn now =>
      if m ∈ w.requests ∧ m.dst = addr i then w.hear addr i m.src m.body drawn now else none
  | .servers x =>
      if x.isRequest then none
      else (Net.step addr w.net x).map fun n => { w with net := n }

end World

section Rules

variable {ι κ : Type} {addr : ι ↪ Sockaddr} {clientAddr : κ ↪ Sockaddr} {name : κ → Username}
  {w w' : World ι κ}

/-- What was sent by a server. -/
theorem World.mem_sent {m : Letter Payload} :
    m ∈ w.sent addr ↔ ∃ e ∈ w.net.log, addr e.server = m.src ∧
      (⟨m.dst, m.body⟩ : Datagram) ∈ e.sent := by
  obtain ⟨src, dst, body⟩ := m
  simp only [World.sent, List.mem_flatMap, List.mem_map, Letter.mk.injEq]
  constructor
  · rintro ⟨e, he, d, hd, rfl, rfl, rfl⟩
    exact ⟨e, he, rfl, hd⟩
  · rintro ⟨e, he, hsrc, hd⟩
    exact ⟨e, he, _, hd, hsrc, rfl, rfl⟩

variable [DecidableEq ι] [DecidableEq κ]

/-- **A run of the world is a run of its network** if all that arrives are requests, so that what
holds of every run of a network holds of the servers. -/
theorem run_net {as : List (WorldAction ι κ)}
    (h : Run (World.step addr clientAddr name) (fun _ x => x.Plain) w as w') :
    Run (Net.step addr) (fun _ _ => True) w.net (as.filterMap WorldAction.atServers) w'.net := by
  refine h.filterMap World.net WorldAction.atServers fun w x w' hok hst => ?_
  cases x with
  | begin k unset =>
    rw [World.step] at hst
    split at hst
    · cases hst
    · cases hst
      exact Or.inl ⟨rfl, rfl⟩
  | line k l =>
    rw [World.step] at hst
    split at hst
    · cases hst
    · obtain ⟨-, hst⟩ := Option.ite_none_left_eq_some.mp hst
      cases hst
      exact Or.inl ⟨rfl, rfl⟩
  | receive k src =>
    obtain ⟨-, hst⟩ := Option.ite_none_right_eq_some.mp hst
    cases hst
    exact Or.inl ⟨rfl, rfl⟩
  | arrive i m drawn now =>
    obtain ⟨-, hst⟩ := Option.ite_none_right_eq_some.mp hst
    obtain ⟨src, dst, body⟩ := m
    obtain ⟨rq, rfl⟩ : ∃ rq, body = .request rq := hok
    rw [World.hear] at hst
    obtain ⟨n, hn, rfl⟩ := Option.map_eq_some_iff.mp hst
    exact Or.inr ⟨_, rfl, hn⟩
  | servers x =>
    obtain ⟨-, hst⟩ := Option.ite_none_left_eq_some.mp hst
    obtain ⟨n, hn, rfl⟩ := Option.map_eq_some_iff.mp hst
    exact Or.inr ⟨_, rfl, hn⟩

end Rules

end DuckChat
